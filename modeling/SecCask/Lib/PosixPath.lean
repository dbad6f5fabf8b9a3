import SecCask.Lib.FileTree

/-!
# SecCask.Lib.PosixPath

Paths as texts, over any alphabet with a slash and a dot: `os.path.abspath` and how the
operating system follows a path. A normalised absolute path is the list of its components,
the innermost first.
-/

namespace SecCask

class PathAlphabet (α : Type) where
  slash : α
  dot : α

instance : PathAlphabet UInt8 := ⟨0x2F, 0x2E⟩

instance : PathAlphabet Char := ⟨'/', '.'⟩

/-- No name holds a null character. -/
instance : FileName (List UInt8) := ⟨fun name => !name.contains 0⟩

instance : FileName (List Char) := ⟨fun name => !name.contains (Char.ofNat 0)⟩

namespace PosixPath

variable {α : Type} [DecidableEq α] [PathAlphabet α]

/-- `path.split(sep)` -/
def components (text : List α) : List (List α) := text.splitOn PathAlphabet.slash

/-- `os.path.isabs` -/
def isAbs (text : List α) : Bool := text.head? = some PathAlphabet.slash

/-- One round of the loop of `normpath` on an absolute path. -/
def normStep (comps : List (List α)) (comp : List α) : List (List α) :=
  if comp = [] ∨ comp = [PathAlphabet.dot] then comps
  else if comp = [PathAlphabet.dot, PathAlphabet.dot] then comps.tail
  else comp :: comps

/-- `os.path.abspath(text)` in the current folder `cwd`. -/
def abspath (cwd : List (List α)) (text : List α) : List (List α) :=
  (components text).foldl normStep (if isAbs text then [] else cwd)

/-- `os.path.join` of two texts. -/
def join (a b : List α) : List α :=
  if isAbs b then b
  else if a = [] ∨ a.getLast? = some PathAlphabet.slash then a ++ b
  else a ++ PathAlphabet.slash :: b

/-- Where the operating system gets to from a folder: each component is looked up in the folder
reached so far, and the last one need not exist. -/
def walk {ν : Type} (t : FileTree (List α) ν) :
    List (List α) → List (List α) → Option (List (List α))
  | path, [] => some path
  | path, comp :: comps =>
      if t.lookup path = some .folder then walk t (normStep path comp) comps else none

/-- The path that a text leads to in the current folder `cwd`. -/
def follow {ν : Type} (t : FileTree (List α) ν) (cwd : List (List α)) (text : List α) :
    Option (List (List α)) :=
  walk t (if isAbs text then [] else cwd) (components text)

/-- A text that is one component: nonempty, without a slash, and neither `.` nor `..`. -/
structure IsName (text : List α) : Prop where
  ne_nil : text ≠ []
  noSlash : PathAlphabet.slash ∉ text
  ne_dot : text ≠ [PathAlphabet.dot]
  ne_dotdot : text ≠ [PathAlphabet.dot, PathAlphabet.dot]

theorem components_append (a b : List α) :
    components (a ++ PathAlphabet.slash :: b) = components a ++ components b :=
  List.splitOn_append_cons_self _ _

theorem isAbs_append {a : List α} (ha : a ≠ []) (b : List α) : isAbs (a ++ b) = isAbs a := by
  cases a with
  | nil => exact absurd rfl ha
  | cons => rfl

/-- Joining and then normalising is normalising in the folder of the first part. -/
theorem abspath_join (cwd : List (List α)) (a b : List α) :
    abspath cwd (join a b) = abspath (abspath cwd a) b := by
  by_cases hb : isAbs b = true
  · rw [join, if_pos hb, abspath, abspath, if_pos hb, if_pos hb]
  by_cases ha : a = []
  · subst ha
    rw [join, if_neg hb, if_pos (Or.inl rfl), List.nil_append]
    rfl
  have hslash : ∀ l : List α, abspath cwd (a ++ l) =
      (components (a ++ l)).foldl normStep (if isAbs a then [] else cwd) := by
    intro l
    rw [abspath, isAbs_append ha]
  rw [join, if_neg hb]
  by_cases hlast : a.getLast? = some PathAlphabet.slash
  · -- The first part ends in a slash: its last component is empty and changes nothing.
    obtain ⟨l, rfl⟩ := List.getLast?_eq_some_iff.mp hlast
    rw [if_pos (Or.inr hlast), hslash, List.append_assoc, List.singleton_append,
      components_append, List.foldl_append, abspath, abspath, if_neg hb, components_append,
      List.foldl_append]
    rfl
  · rw [if_neg (by simp [ha, hlast]), hslash, components_append, List.foldl_append, abspath,
      abspath, if_neg hb]

theorem IsName.not_isAbs {text : List α} (h : IsName text) : isAbs text = false := by
  unfold isAbs
  rw [decide_eq_false_iff_not]
  intro hhead
  exact h.noSlash (List.mem_of_mem_head? hhead)

theorem IsName.components {text : List α} (h : IsName text) : components text = [text] :=
  List.splitOn_eq_singleton h.noSlash

theorem IsName.normStep {text : List α} (h : IsName text) (path : List (List α)) :
    normStep path text = text :: path := by
  simp [PosixPath.normStep, h.ne_nil, h.ne_dot, h.ne_dotdot]

theorem IsName.follow {ν : Type} {t : FileTree (List α) ν} {text : List α} (h : IsName text)
    {cwd : List (List α)} (hcwd : t.lookup cwd = some .folder) :
    follow t cwd text = some (text :: cwd) := by
  rw [PosixPath.follow, h.not_isAbs, h.components]
  simp only [Bool.false_eq_true, if_false, walk, if_pos hcwd, h.normStep]

/-- A name in a folder that is named in its turn. -/
theorem IsName.follow_join {ν : Type} {t : FileTree (List α) ν} {text text' : List α}
    (h : IsName text) (h' : IsName text') {cwd : List (List α)}
    (hcwd : t.lookup cwd = some .folder) (hfolder : t.lookup (text :: cwd) = some .folder) :
    PosixPath.follow t cwd (join text text') = some (text' :: text :: cwd) := by
  have hlast : ¬ (text = [] ∨ text.getLast? = some PathAlphabet.slash) := by
    intro hor
    rcases hor with hnil | hlast
    · exact h.ne_nil hnil
    · exact h.noSlash (List.mem_of_getLast? hlast)
  rw [join, if_neg (by simp [h'.not_isAbs]), if_neg hlast, PosixPath.follow, components_append,
    h.components, h'.components, isAbs_append h.ne_nil, h.not_isAbs]
  simp only [Bool.false_eq_true, if_false, List.singleton_append, walk, if_pos hcwd, h.normStep,
    if_pos hfolder, h'.normStep]

theorem IsName.abspath {text : List α} (h : IsName text) (cwd : List (List α)) :
    abspath cwd text = text :: cwd := by
  rw [PosixPath.abspath, h.components, h.not_isAbs]
  exact h.normStep cwd

instance (text : List α) : Decidable (IsName text) :=
  decidable_of_iff (text ≠ [] ∧ PathAlphabet.slash ∉ text ∧ text ≠ [PathAlphabet.dot] ∧
      text ≠ [PathAlphabet.dot, PathAlphabet.dot])
    ⟨fun ⟨hnil, hslash, hdot, hdotdot⟩ => ⟨hnil, hslash, hdot, hdotdot⟩,
      fun h => ⟨h.ne_nil, h.noSlash, h.ne_dot, h.ne_dotdot⟩⟩

/-! ### Paths from the current folder on -/

/-- The text `./a/b`, with any number of dots, for the path to `b` in `a`. -/
structure Dotted (text : List α) (path : List (List α)) : Prop where
  relative : isAbs text = false
  noEnd : ¬ (text = [] ∨ text.getLast? = some PathAlphabet.slash)
  components : ∃ n, components text = List.replicate n [PathAlphabet.dot] ++ path.reverse

theorem components_dot (hne : PathAlphabet.dot ≠ (PathAlphabet.slash : α)) :
    PosixPath.components [(PathAlphabet.dot : α)] = [[PathAlphabet.dot]] :=
  List.splitOn_eq_singleton (by simpa using hne.symm)

theorem dotted_dot (hne : PathAlphabet.dot ≠ (PathAlphabet.slash : α)) :
    Dotted [PathAlphabet.dot] ([] : List (List α)) where
  relative := by simpa [isAbs] using hne
  noEnd := by simpa using hne
  components := ⟨1, components_dot hne⟩

/-- Another `./` in front. -/
theorem Dotted.prepend {text : List α} {path : List (List α)} (h : Dotted text path)
    (hne : PathAlphabet.dot ≠ (PathAlphabet.slash : α)) :
    Dotted (PathAlphabet.dot :: PathAlphabet.slash :: text) path where
  relative := by simpa [isAbs] using hne
  noEnd := by
    have htext : text ≠ [] := fun hnil => h.noEnd (Or.inl hnil)
    intro hor
    rcases hor with hnil | hlast
    · cases hnil
    · rw [List.getLast?_cons_of_ne_nil (List.cons_ne_nil _ _),
        List.getLast?_cons_of_ne_nil htext] at hlast
      exact h.noEnd (Or.inr hlast)
  components := by
    obtain ⟨n, hn⟩ := h.components
    refine ⟨n + 1, ?_⟩
    have hcut := components_append [(PathAlphabet.dot : α)] text
    rw [components_dot hne, hn] at hcut
    exact hcut

theorem Dotted.join {text name : List α} {path : List (List α)} (h : Dotted text path)
    (hname : IsName name) : Dotted (join text name) (name :: path) := by
  have hjoin : PosixPath.join text name = text ++ PathAlphabet.slash :: name := by
    rw [PosixPath.join, if_neg (by simp [hname.not_isAbs]), if_neg h.noEnd]
  have hne : text ≠ [] := fun hnil => h.noEnd (Or.inl hnil)
  rw [hjoin]
  constructor
  case relative => rw [isAbs_append hne, h.relative]
  case noEnd =>
    intro hor
    rcases hor with hnil | hlast
    · simp at hnil
    · rw [List.getLast?_append_of_ne_nil _ (List.cons_ne_nil _ _),
        List.getLast?_cons_of_ne_nil hname.ne_nil] at hlast
      exact hname.noSlash (List.mem_of_getLast? hlast)
  case components =>
    obtain ⟨n, hn⟩ := h.components
    refine ⟨n, ?_⟩
    rw [components_append, hn, hname.components, List.reverse_cons, List.append_assoc]

theorem normStep_dot (path : List (List α)) : normStep path [PathAlphabet.dot] = path := by
  simp [normStep]

theorem foldl_normStep_dots (n : ℕ) (comps path : List (List α)) :
    (List.replicate n [PathAlphabet.dot] ++ comps).foldl normStep path =
      comps.foldl normStep path := by
  induction n with
  | zero => rfl
  | succ n ih =>
      rw [List.replicate_succ, List.cons_append, List.foldl_cons, normStep_dot]
      exact ih

theorem foldl_normStep_names {path : List (List α)} (hnames : ∀ name ∈ path, IsName name)
    (cwd : List (List α)) : path.reverse.foldl normStep cwd = path ++ cwd := by
  rw [List.foldl_reverse]
  induction path with
  | nil => rfl
  | cons name path ih =>
      rw [List.foldr_cons, ih fun name hmem => hnames name (List.mem_cons_of_mem _ hmem),
        (hnames name List.mem_cons_self).normStep, List.cons_append]

theorem Dotted.abspath {text : List α} {path : List (List α)} (h : Dotted text path)
    (hnames : ∀ name ∈ path, IsName name) (cwd : List (List α)) :
    abspath cwd text = path ++ cwd := by
  obtain ⟨n, hn⟩ := h.components
  rw [PosixPath.abspath, hn, h.relative, foldl_normStep_dots]
  exact foldl_normStep_names hnames cwd

theorem walk_append {ν : Type} (t : FileTree (List α) ν) (path comps comps' : List (List α)) :
    walk t path (comps ++ comps') = (walk t path comps).bind fun path' => walk t path' comps' := by
  induction comps generalizing path with
  | nil => rfl
  | cons comp comps ih =>
      rw [List.cons_append, walk, walk]
      split
      · exact ih _
      · rfl

theorem walk_dots {ν : Type} {t : FileTree (List α) ν} {cwd : List (List α)}
    (hcwd : t.lookup cwd = some .folder) (n : ℕ) (comps : List (List α)) :
    walk t cwd (List.replicate n [PathAlphabet.dot] ++ comps) = walk t cwd comps := by
  induction n with
  | zero => rfl
  | succ n ih =>
      rw [List.replicate_succ, List.cons_append, walk, if_pos hcwd, normStep_dot]
      exact ih

/-- The operating system gets to an entry by the names of the folders that it is in. -/
theorem walk_names {ν : Type} {t : FileTree (List α) ν} {path cwd : List (List α)}
    (hnames : ∀ name ∈ path, IsName name) (hmem : t.lookup (path ++ cwd) ≠ none) :
    walk t cwd path.reverse = some (path ++ cwd) := by
  induction path with
  | nil => rfl
  | cons name path ih =>
      have hparent : t.lookup (path ++ cwd) = some .folder := t.parent name _ hmem
      rw [List.reverse_cons, walk_append,
        ih (fun name hname => hnames name (List.mem_cons_of_mem _ hname)) (by simp [hparent])]
      simp only [Option.bind_some, walk, if_pos hparent,
        (hnames name List.mem_cons_self).normStep, List.cons_append]

theorem Dotted.follow {ν : Type} {t : FileTree (List α) ν} {text : List α}
    {path cwd : List (List α)} (h : Dotted text path) (hnames : ∀ name ∈ path, IsName name)
    (hcwd : t.lookup cwd = some .folder) (hmem : t.lookup (path ++ cwd) ≠ none) :
    follow t cwd text = some (path ++ cwd) := by
  obtain ⟨n, hn⟩ := h.components
  rw [PosixPath.follow, hn, h.relative]
  simp only [Bool.false_eq_true, if_false]
  rw [walk_dots hcwd]
  exact walk_names hnames hmem

end PosixPath

end SecCask
