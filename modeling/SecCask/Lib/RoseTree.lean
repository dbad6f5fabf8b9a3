import Mathlib.Data.List.Chain
import Mathlib.Data.List.Forall2
import Mathlib.Data.List.Nodup

/-!
# SecCask.Lib.RoseTree

Labelled trees with any number of children, and their **grids**: trees in which every node
at one level has exactly one child for each key of that level. The walks from the root of a
grid to its leaves that take only allowed edges are exactly the allowed sequences of keys.
-/

namespace SecCask

inductive RoseTree (α : Type*)
  | node (label : α) (children : List (RoseTree α))
  deriving Repr

namespace RoseTree

variable {α β κ : Type*}

def label : RoseTree α → α
  | .node a _ => a

def children : RoseTree α → List (RoseTree α)
  | .node _ cs => cs

@[simp] theorem label_node (a : α) (cs : List (RoseTree α)) : (node a cs).label = a := rfl

@[simp] theorem children_node (a : α) (cs : List (RoseTree α)) : (node a cs).children = cs := rfl

mutual

def map (f : α → β) : RoseTree α → RoseTree β
  | .node a cs => .node (f a) (mapAll f cs)

def mapAll (f : α → β) : List (RoseTree α) → List (RoseTree β)
  | [] => []
  | c :: cs => map f c :: mapAll f cs

end

@[simp] theorem label_map (f : α → β) (t : RoseTree α) : (t.map f).label = f t.label := by
  cases t with
  | node a cs => rfl

/-- Rewrites the subtrees at a level, given the labels on the way to them (the subtree's own
label last). -/
def atLevel (f : List α → RoseTree α → RoseTree α) : ℕ → List α → RoseTree α → RoseTree α
  | 0, path, t => f path t
  | n + 1, path, .node a cs => .node a (cs.map fun c => atLevel f n (path ++ [c.label]) c)

theorem label_atLevel {f : List α → RoseTree α → RoseTree α}
    (hf : ∀ path t, (f path t).label = t.label) (n : ℕ) (path : List α) (t : RoseTree α) :
    (atLevel f n path t).label = t.label := by
  cases n with
  | zero => exact hf path t
  | succ n =>
      cases t with
      | node a cs => rfl

/-! ### Grids -/

/-- Every node at level `i` has one child for each key of stage `i`, in any order, and
below the last stage there is nothing. -/
def Grid (key : α → κ) : List (List κ) → RoseTree α → Prop
  | [], t => t.children = []
  | ks :: stages, t =>
      (t.children.map fun c => key c.label).Perm ks ∧ ∀ c ∈ t.children, Grid key stages c

/-- A grid grows by a level when the nodes that had no children get one for each key. -/
theorem Grid.atLevel {key : α → κ} {f : List α → RoseTree α → RoseTree α} (ks : List κ)
    (hlabel : ∀ path t, (f path t).label = t.label)
    (hf : ∀ path t, t.children = [] → Grid key [ks] (f path t))
    {stages : List (List κ)} {t : RoseTree α} (ht : Grid key stages t) (path : List α) :
    Grid key (stages ++ [ks]) (RoseTree.atLevel f stages.length path t) := by
  induction stages generalizing t path with
  | nil => exact hf path t ht
  | cons stage stages ih =>
      cases t with
      | node a cs =>
          obtain ⟨hperm, hcs⟩ := ht
          refine ⟨?_, ?_⟩
          · simpa [RoseTree.atLevel, Function.comp_def, label_atLevel hlabel] using hperm
          · intro c hc
            obtain ⟨d, hd, rfl⟩ := List.mem_map.mp hc
            exact ih (hcs d hd) _

/-- Only the keys of the nodes matter for being a grid. -/
theorem Grid.map_children {key : α → κ} {ks : List κ} {stages : List (List κ)} {a b : α}
    {cs : List (RoseTree α)} {f : RoseTree α → RoseTree α}
    (hlabel : ∀ c ∈ cs, key (f c).label = key c.label)
    (hf : ∀ c ∈ cs, Grid key stages c → Grid key stages (f c))
    (ht : Grid key (ks :: stages) (node a cs)) : Grid key (ks :: stages) (node b (cs.map f)) := by
  obtain ⟨hperm, hcs⟩ := ht
  refine ⟨?_, ?_⟩
  · rw [children_node, List.map_map]
    exact (List.map_congr_left hlabel) ▸ hperm
  · intro c hc
    obtain ⟨d, hd, rfl⟩ := List.mem_map.mp hc
    exact hf d hd (hcs d hd)

theorem Grid.relabel {key : α → κ} {stages : List (List κ)} {t : RoseTree α}
    (ht : Grid key stages t) (a : α) : Grid key stages (node a t.children) := by
  cases stages with
  | nil => exact ht
  | cons => exact ht

theorem Grid.replace_child {key : α → κ} {stages : List (List κ)} {a : α} {c d : RoseTree α}
    {before after : List (RoseTree α)} (hlabel : key d.label = key c.label)
    (hd : ∀ stages, Grid key stages c → Grid key stages d)
    (ht : Grid key stages (node a (before ++ c :: after))) :
    Grid key stages (node a (before ++ d :: after)) := by
  cases stages with
  | nil => exact absurd ht (by simp [Grid])
  | cons ks stages =>
      obtain ⟨hperm, hcs⟩ := ht
      refine ⟨by simpa [hlabel] using hperm, ?_⟩
      intro e he
      rw [children_node, List.mem_append, List.mem_cons] at he
      rcases he with he | rfl | he
      · exact hcs e (by simp [he])
      · exact hd stages (hcs c (by simp))
      · exact hcs e (by simp [he])

/-! ### Properties of every node -/

/-- Every node below the root has the property, which may look at the keys on the way from
the root to the node (its own key last) after those of `path`. -/
inductive Everywhere (key : α → κ) (P : List κ → α → Prop) : List κ → RoseTree α → Prop
  | node {path : List κ} {a : α} {cs : List (RoseTree α)}
      (hlabel : ∀ c ∈ cs, P (path ++ [key c.label]) c.label)
      (hchild : ∀ c ∈ cs, Everywhere key P (path ++ [key c.label]) c) :
      Everywhere key P path (node a cs)

namespace Everywhere

variable {key : α → κ} {P Q : List κ → α → Prop} {path : List κ}

theorem label {t : RoseTree α} (ht : Everywhere key P path t) :
    ∀ c ∈ t.children, P (path ++ [key c.label]) c.label := by
  cases ht with
  | node hlabel hchild => exact hlabel

theorem child {t : RoseTree α} (ht : Everywhere key P path t) :
    ∀ c ∈ t.children, Everywhere key P (path ++ [key c.label]) c := by
  cases ht with
  | node hlabel hchild => exact hchild

theorem of_children {t : RoseTree α}
    (hlabel : ∀ c ∈ t.children, P (path ++ [key c.label]) c.label)
    (hchild : ∀ c ∈ t.children, Everywhere key P (path ++ [key c.label]) c) :
    Everywhere key P path t := by
  cases t with
  | node a cs => exact node hlabel hchild

theorem relabel {t : RoseTree α} (ht : Everywhere key P path t) (a : α) :
    Everywhere key P path (.node a t.children) :=
  .node ht.label ht.child

theorem leaf {t : RoseTree α} (ht : t.children = []) : Everywhere key P path t :=
  of_children (by simp [ht]) (by simp [ht])

/-- The nodes below a path are at the paths that go on from it. -/
theorem imp {t : RoseTree α} (ht : Everywhere key P path t)
    (h : ∀ k rest n, P (path ++ k :: rest) n → Q (path ++ k :: rest) n) :
    Everywhere key Q path t := by
  induction ht with
  | node hlabel hchild ih =>
      refine node (fun c hc => h _ [] _ (hlabel c hc)) fun c hc => ih c hc ?_
      intro k rest n hn
      rw [List.append_assoc] at hn ⊢
      exact h _ (k :: rest) n hn

theorem atLevel {f : List α → RoseTree α → RoseTree α} (hsame : ∀ p t, (f p t).label = t.label)
    (hf : ∀ path p t, Everywhere key P path t → Everywhere key P path (f p t)) (n : ℕ)
    (p : List α) {t : RoseTree α} (ht : Everywhere key P path t) :
    Everywhere key P path (RoseTree.atLevel f n p t) := by
  induction n generalizing path p t with
  | zero => exact hf path p t ht
  | succ n ih =>
      cases ht with
      | node hlabel hchild =>
          refine node ?_ ?_
          · intro c hc
            obtain ⟨d, hd, rfl⟩ := List.mem_map.mp hc
            rw [label_atLevel hsame]
            exact hlabel d hd
          · intro c hc
            obtain ⟨d, hd, rfl⟩ := List.mem_map.mp hc
            rw [label_atLevel hsame]
            exact ih _ (hchild d hd)

theorem replace_child {a : α} {d : RoseTree α} {before after : List (RoseTree α)}
    (hother : ∀ e ∈ before ++ after, P (path ++ [key e.label]) e.label ∧
      Everywhere key P (path ++ [key e.label]) e)
    (hd : P (path ++ [key d.label]) d.label)
    (hbelow : Everywhere key P (path ++ [key d.label]) d) :
    Everywhere key P path (.node a (before ++ d :: after)) := by
  have hall : ∀ e ∈ before ++ d :: after, P (path ++ [key e.label]) e.label ∧
      Everywhere key P (path ++ [key e.label]) e := by
    intro e he
    rw [List.mem_append, List.mem_cons] at he
    rcases he with he | rfl | he
    · exact hother e (List.mem_append_left _ he)
    · exact ⟨hd, hbelow⟩
    · exact hother e (List.mem_append_right _ he)
  exact node (fun e he => (hall e he).1) fun e he => (hall e he).2

end Everywhere

/-! ### Walks -/

mutual

/-- The label sequences below the root on the way to each leaf, along allowed edges. -/
def walks (allowed : α → α → Bool) : RoseTree α → List (List α)
  | .node a cs => if cs.isEmpty then [[]] else walksThrough allowed a cs

/-- The walks that go from a node labelled `a` into one of its children. -/
def walksThrough (allowed : α → α → Bool) (a : α) : List (RoseTree α) → List (List α)
  | [] => []
  | c :: cs =>
      (if allowed a c.label then (walks allowed c).map (c.label :: ·) else []) ++
        walksThrough allowed a cs

end

theorem walksThrough_eq_flatMap (allowed : α → α → Bool) (a : α) (cs : List (RoseTree α)) :
    walksThrough allowed a cs = cs.flatMap fun c =>
      if allowed a c.label then (walks allowed c).map (c.label :: ·) else [] := by
  induction cs with
  | nil => rfl
  | cons c cs ih => rw [walksThrough, ih, List.flatMap_cons]

mutual

theorem walks_map (allowed : β → β → Bool) (f : α → β) : ∀ t : RoseTree α,
    walks allowed (t.map f) = (walks (fun a b => allowed (f a) (f b)) t).map (List.map f)
  | .node a cs => by
      have hempty : (mapAll f cs).isEmpty = cs.isEmpty := by cases cs <;> rfl
      rw [map, walks, walks, hempty]
      split
      · rfl
      · exact walksThrough_map allowed f a cs

theorem walksThrough_map (allowed : β → β → Bool) (f : α → β) (a : α) :
    ∀ cs : List (RoseTree α), walksThrough allowed (f a) (mapAll f cs) =
      (walksThrough (fun a b => allowed (f a) (f b)) a cs).map (List.map f)
  | [] => rfl
  | c :: cs => by
      rw [mapAll, walksThrough, walksThrough, walks_map allowed f c,
        walksThrough_map allowed f a cs, label_map]
      split <;> simp [Function.comp_def]

end

mutual

/-- Where only the child decides which edges are allowed, all nodes of a walk are. -/
theorem allowed_of_mem_walks {allowed : α → Bool} : ∀ {t : RoseTree α} {w : List α},
    w ∈ walks (fun _ b => allowed b) t → ∀ {b}, b ∈ w → allowed b = true
  | .node a cs, w, hw, b, hb => by
      rw [walks] at hw
      split at hw
      · obtain rfl := List.mem_singleton.mp hw
        cases hb
      · exact allowed_of_mem_walksThrough hw hb

theorem allowed_of_mem_walksThrough {allowed : α → Bool} {a : α} :
    ∀ {cs : List (RoseTree α)} {w : List α},
      w ∈ walksThrough (fun _ b => allowed b) a cs → ∀ {b}, b ∈ w → allowed b = true
  | [], w, hw, b, hb => by cases hw
  | c :: cs, w, hw, b, hb => by
      rw [walksThrough] at hw
      rcases List.mem_append.mp hw with hw | hw
      · split at hw
        · rename_i hallowed
          obtain ⟨v, hv, rfl⟩ := List.mem_map.mp hw
          rcases List.mem_cons.mp hb with rfl | hb
          · exact hallowed
          · exact allowed_of_mem_walks hv hb
        · cases hw
      · exact allowed_of_mem_walksThrough hw hb

end

theorem walks_leaf (allowed : α → α → Bool) {t : RoseTree α} (ht : t.children = []) :
    walks allowed t = [[]] := by
  cases t with
  | node a cs =>
      obtain rfl : cs = [] := ht
      rfl

theorem walks_node (allowed : α → α → Bool) {t : RoseTree α} (ht : t.children ≠ []) :
    walks allowed t = t.children.flatMap fun c =>
      if allowed t.label c.label then (walks allowed c).map (c.label :: ·) else [] := by
  cases t with
  | node a cs =>
      have hcs : cs.isEmpty = false := by simpa using ht
      rw [walks, hcs]
      exact walksThrough_eq_flatMap allowed a cs

theorem Grid.children_ne_nil {key : α → κ} {ks : List κ} {stages : List (List κ)}
    {t : RoseTree α} (ht : Grid key (ks :: stages) t) (hks : ks ≠ []) : t.children ≠ [] := by
  intro hnil
  obtain ⟨hperm, -⟩ := ht
  rw [hnil] at hperm
  exact hks (List.nil_perm.mp hperm)

/-- What holds everywhere holds along every walk. -/
theorem Everywhere.of_walk {key : α → κ} {P : List κ → α → Prop} {allowed : α → α → Bool}
    {path : List κ} {t : RoseTree α} (ht : Everywhere key P path t) {w : List α}
    (hw : w ∈ walks allowed t) (i : ℕ) (hi : i < w.length) :
    P (path ++ (w.take (i + 1)).map key) w[i] := by
  induction ht generalizing w i with
  | @node path a cs hlabel hchild ih =>
      by_cases hcs : cs = []
      · rw [walks_leaf allowed (by simpa using hcs), List.mem_singleton] at hw
        simp [hw] at hi
      · rw [walks_node allowed (by simpa using hcs)] at hw
        obtain ⟨c, hc, hw⟩ := List.mem_flatMap.mp hw
        rw [children_node] at hc
        split at hw
        · obtain ⟨v, hv, rfl⟩ := List.mem_map.mp hw
          cases i with
          | zero => simpa using hlabel c hc
          | succ i =>
              have hrest := ih c hc hv i (by simpa using hi)
              simpa using hrest
        · cases hw

section Keys

variable {key : α → κ} {allowed : κ → κ → Bool}

/-- The walks of a grid spell the sequences that take one key from each stage along allowed
pairs, starting at the root's key. -/
theorem Grid.mem_walks {stages : List (List κ)} (hstages : ∀ ks ∈ stages, ks ≠ [])
    {t : RoseTree α} (ht : Grid key stages t) {s : List κ} :
    s ∈ (walks (fun a b => allowed (key a) (key b)) t).map (List.map key) ↔
      List.Forall₂ (· ∈ ·) s stages ∧ List.IsChain (allowed · · = true) (key t.label :: s) := by
  induction stages generalizing t s with
  | nil =>
      rw [walks_leaf _ ht]
      cases s <;> simp
  | cons ks stages ih =>
      have hne := ht.children_ne_nil (hstages ks (by simp))
      obtain ⟨hperm, hcs⟩ := ht
      have ih' := fun c hc s => ih (fun ks hks => hstages ks (by simp [hks])) (hcs c hc) (s := s)
      rw [walks_node _ hne]
      constructor
      · intro hs
        obtain ⟨w, hw, rfl⟩ := List.mem_map.mp hs
        obtain ⟨c, hc, hw⟩ := List.mem_flatMap.mp hw
        by_cases hallowed : allowed (key t.label) (key c.label) = true
        · rw [if_pos hallowed] at hw
          obtain ⟨v, hv, rfl⟩ := List.mem_map.mp hw
          obtain ⟨hmem, hchain⟩ := (ih' c hc _).mp (List.mem_map_of_mem hv)
          have hkey : key c.label ∈ ks := hperm.subset (List.mem_map_of_mem hc)
          exact ⟨List.Forall₂.cons hkey hmem, List.isChain_cons_cons.mpr ⟨hallowed, hchain⟩⟩
        · simp [hallowed] at hw
      · intro hex
        obtain ⟨hmem, hchain⟩ := hex
        cases hmem with
        | @cons k _ s _ hk hmem =>
            obtain ⟨hallowed, hchain⟩ := List.isChain_cons_cons.mp hchain
            obtain ⟨c, hc, rfl⟩ := List.mem_map.mp (hperm.symm.subset hk)
            obtain ⟨w, hw, rfl⟩ := List.mem_map.mp ((ih' c hc s).mpr ⟨hmem, hchain⟩)
            refine List.mem_map.mpr ⟨c.label :: w, List.mem_flatMap.mpr ⟨c, hc, ?_⟩, rfl⟩
            rw [if_pos hallowed]
            exact List.mem_map_of_mem hw

/-- No sequence is spelled by two walks of a grid. -/
theorem Grid.nodup_walks {stages : List (List κ)} (hstages : ∀ ks ∈ stages, ks.Nodup)
    {t : RoseTree α} (ht : Grid key stages t) :
    ((walks (fun a b => allowed (key a) (key b)) t).map (List.map key)).Nodup := by
  induction stages generalizing t with
  | nil => simp [walks_leaf _ ht]
  | cons ks stages ih =>
      by_cases hne : t.children = []
      · simp [walks_leaf _ hne]
      · obtain ⟨hperm, hcs⟩ := ht
        have hkeys : (t.children.map fun c => key c.label).Nodup :=
          hperm.nodup_iff.mpr (hstages ks (by simp))
        rw [walks_node _ hne, List.map_flatMap]
        refine List.nodup_flatMap.mpr ⟨?_, ?_⟩
        · intro c hc
          by_cases hallowed : allowed (key t.label) (key c.label) = true
          · have hnodup := ih (fun ks hks => hstages ks (by simp [hks])) (hcs c hc)
            simp only [hallowed, if_true, List.map_map, Function.comp_def, List.map_cons]
            have hcons := hnodup.map (List.cons_injective (a := key c.label))
            simpa [List.map_map, Function.comp_def] using hcons
          · simp [hallowed]
        · -- Walks through different children differ in their first key.
          have hpairs : t.children.Pairwise fun c d => key c.label ≠ key d.label :=
            List.pairwise_map.mp hkeys
          refine hpairs.imp ?_
          intro c d hcd s hsc hsd
          have hhead : ∀ e : RoseTree α, s ∈ List.map (List.map key)
              (if allowed (key t.label) (key e.label) = true then
                (walks (fun a b => allowed (key a) (key b)) e).map (e.label :: ·) else []) →
              s.head? = some (key e.label) := by
            intro e he
            split at he
            · obtain ⟨w, hw, rfl⟩ := List.mem_map.mp he
              obtain ⟨w, -, rfl⟩ := List.mem_map.mp hw
              rfl
            · simp at he
          exact hcd (Option.some.inj ((hhead c hsc).symm.trans (hhead d hsd)))

end Keys

/-! ### Walks through one node -/

mutual

/-- The labels of all nodes. -/
def labels : RoseTree α → List α
  | .node a cs => a :: labelsOfAll cs

def labelsOfAll : List (RoseTree α) → List α
  | [] => []
  | c :: cs => labels c ++ labelsOfAll cs

end

theorem label_mem_labels (t : RoseTree α) : t.label ∈ labels t := by
  cases t with
  | node a cs => exact List.mem_cons_self

mutual

theorem mem_labels_of_mem_walks {allowed : α → α → Bool} : ∀ {t : RoseTree α} {w : List α},
    w ∈ walks allowed t → ∀ {b}, b ∈ w → b ∈ labels t
  | .node a cs, w, hw, b, hb => by
      rw [walks] at hw
      split at hw
      · obtain rfl := List.mem_singleton.mp hw
        cases hb
      · exact List.mem_cons_of_mem _ (mem_labelsOfAll_of_mem_walksThrough hw hb)

theorem mem_labelsOfAll_of_mem_walksThrough {allowed : α → α → Bool} {a : α} :
    ∀ {cs : List (RoseTree α)} {w : List α},
      w ∈ walksThrough allowed a cs → ∀ {b}, b ∈ w → b ∈ labelsOfAll cs
  | [], w, hw, b, hb => by cases hw
  | c :: cs, w, hw, b, hb => by
      rw [walksThrough] at hw
      rw [labelsOfAll]
      rcases List.mem_append.mp hw with hw | hw
      · split at hw
        · obtain ⟨v, hv, rfl⟩ := List.mem_map.mp hw
          rcases List.mem_cons.mp hb with rfl | hb
          · exact List.mem_append_left _ (label_mem_labels c)
          · exact List.mem_append_left _ (mem_labels_of_mem_walks hv hb)
        · cases hw
      · exact List.mem_append_right _ (mem_labelsOfAll_of_mem_walksThrough hw hb)

end

/-- The lists in which `b` occurs stand next to each other. -/
def Together (b : α) (lists : List (List α)) : Prop :=
  ∃ front block back, lists = front ++ block ++ back ∧
    (∀ l ∈ front, b ∉ l) ∧ (∀ l ∈ block, b ∈ l) ∧ ∀ l ∈ back, b ∉ l

namespace Together

variable {b : α} {lists : List (List α)}

theorem of_notMem (h : ∀ l ∈ lists, b ∉ l) : Together b lists :=
  ⟨lists, [], [], by simp, h, by simp, by simp⟩

theorem append_left (h : Together b lists) {more : List (List α)} (hmore : ∀ l ∈ more, b ∉ l) :
    Together b (more ++ lists) := by
  obtain ⟨front, block, back, rfl, hfront, hblock, hback⟩ := h
  refine ⟨more ++ front, block, back, by simp, ?_, hblock, hback⟩
  intro l hl
  exact (List.mem_append.mp hl).elim (hmore l) (hfront l)

theorem append_right (h : Together b lists) {more : List (List α)} (hmore : ∀ l ∈ more, b ∉ l) :
    Together b (lists ++ more) := by
  obtain ⟨front, block, back, rfl, hfront, hblock, hback⟩ := h
  refine ⟨front, block, back ++ more, by simp, hfront, hblock, ?_⟩
  intro l hl
  exact (List.mem_append.mp hl).elim (hback l) (hmore l)

theorem map_cons (h : Together b lists) (a : α) : Together b (lists.map (a :: ·)) := by
  by_cases hb : b = a
  · refine ⟨[], lists.map (a :: ·), [], by simp, by simp, ?_, by simp⟩
    intro l hl
    obtain ⟨v, -, rfl⟩ := List.mem_map.mp hl
    exact hb ▸ List.mem_cons_self
  · obtain ⟨front, block, back, rfl, hfront, hblock, hback⟩ := h
    refine ⟨front.map (a :: ·), block.map (a :: ·), back.map (a :: ·), by simp, ?_, ?_, ?_⟩
    all_goals
      intro l hl
      obtain ⟨v, hv, rfl⟩ := List.mem_map.mp hl
      simp only [List.mem_cons, hb, false_or]
    · exact hfront v hv
    · exact hblock v hv
    · exact hback v hv

end Together

mutual

/-- Where no two nodes have the same label, the walks through a node follow each other. -/
theorem together_walks {allowed : α → α → Bool} (b : α) :
    ∀ t : RoseTree α, (labels t).Nodup → Together b (walks allowed t)
  | .node a cs, ht => by
      rw [walks]
      split
      · exact .of_notMem (by simp)
      · exact together_walksThrough b a cs (List.nodup_cons.mp ht).2

theorem together_walksThrough {allowed : α → α → Bool} (b a : α) :
    ∀ cs : List (RoseTree α), (labelsOfAll cs).Nodup → Together b (walksThrough allowed a cs)
  | [], _ => .of_notMem (by simp [walksThrough])
  | c :: cs, hcs => by
      obtain ⟨hc, hrest, hdisjoint⟩ := List.nodup_append'.mp hcs
      rw [walksThrough]
      by_cases hmem : b ∈ labels c
      · -- no later child has the node
        refine Together.append_right ?_ fun l hl hb =>
          hdisjoint hmem (mem_labelsOfAll_of_mem_walksThrough hl hb)
        split
        · exact (together_walks b c hc).map_cons c.label
        · exact .of_notMem (by simp)
      · refine (together_walksThrough b a cs hrest).append_left fun l hl hb => ?_
        split at hl
        · obtain ⟨v, hv, rfl⟩ := List.mem_map.mp hl
          rcases List.mem_cons.mp hb with rfl | hb
          · exact hmem (label_mem_labels c)
          · exact hmem (mem_labels_of_mem_walks hv hb)
        · cases hl

end

end RoseTree

end SecCask
