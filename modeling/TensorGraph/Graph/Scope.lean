import TensorGraph.Graph.Basic
import TensorGraph.Text.UnitOrder

/-!
# Names in scope

A graph defines the names of its inputs and of its nodes' outputs. A name that a
body does not define is looked up in the graphs around it, innermost first; the names
that a body takes from outside are its outer references. A node reads its inputs and
the outer references of its bodies, and the readers of a value are the nodes that
read it.

Of several nodes that produce one name the first in the list counts. The empty name
stands for something absent: it is never produced and never read.

## Main results

* `Graph.mem_outerReferences` -- which names a graph takes from outside.
* `Graph.mem_readers` -- the readers of a value are the places of nodes that read it.
* `freshName_not_mem` -- a fresh name is not taken.
-/

namespace TensorGraph

namespace Node

/-- Whether a value is among the outputs of the node. The empty name never is. -/
def produces (n : Node) (value : String) : Bool := value != "" && n.outputs.contains value

end Node

namespace Graph

/-- Whether a name is an input of the graph. -/
def isInput (g : Graph) (name : String) : Bool := g.inputs.contains name

/-- Whether a name is an output of the graph. -/
def isOutput (g : Graph) (name : String) : Bool := g.outputs.contains name

/-- The place of the node that produces a value. -/
def producerPlace? (g : Graph) (value : String) : Option Nat :=
  g.nodes.findIdx? fun n => n.produces value

/-- The node that produces a value. -/
def producer? (g : Graph) (value : String) : Option Node :=
  g.nodes.find? fun n => n.produces value

/-- Whether the graph itself defines a name. -/
def defines (g : Graph) (name : String) : Bool := g.isInput name || (g.producer? name).isSome

/-- The names that the graph, or a graph nested in it, reads without defining them,
each once. -/
def outerReferences : Graph → List String :=
  fold fun g below =>
    let read := (List.zipWith (fun n inside => n.inputs ++ inside.flatten) g.nodes below).flatten
    ((read ++ g.outputs).filter fun name => name != "" && !g.defines name).eraseDups

end Graph

/-- The names that a node reads, itself or through its bodies. -/
def Node.reads (n : Node) : List String :=
  (n.inputs.filter (· != "")) ++ (n.bodies.flatMap fun body => body.2.outerReferences)

namespace Graph

theorem outerReferences_eq (g : Graph) :
    g.outerReferences =
      ((g.nodes.flatMap (fun n => n.inputs ++ n.bodies.flatMap fun body => body.2.outerReferences)
        ++ g.outputs).filter fun name => name != "" && !g.defines name).eraseDups := by
  unfold outerReferences
  rw [fold_eq]
  simp only [List.zipWith_map_right, List.zipWith_self, List.flatMap_def]

/-- A name is taken from outside exactly when it is not empty, not defined here, and a
node input, a graph output or taken from outside by a body. -/
theorem mem_outerReferences {g : Graph} {name : String} :
    name ∈ g.outerReferences ↔
      name ≠ "" ∧ g.defines name = false ∧
        (name ∈ g.outputs ∨ ∃ n ∈ g.nodes, name ∈ n.inputs ∨
          ∃ body ∈ n.bodies, name ∈ body.2.outerReferences) := by
  rw [outerReferences_eq]
  simp only [List.mem_eraseDups, List.mem_filter, List.mem_append, List.mem_flatMap,
    bne_iff_ne, ne_eq, Bool.and_eq_true, Bool.not_eq_true']
  constructor
  · rintro ⟨h | h, hne, hd⟩
    · exact ⟨hne, hd, .inr h⟩
    · exact ⟨hne, hd, .inl h⟩
  · rintro ⟨hne, hd, h | h⟩
    · exact ⟨.inr h, hne, hd⟩
    · exact ⟨.inl h, hne, hd⟩

/-- The places of the nodes that read a value, in list order. -/
def readers (g : Graph) (value : String) : List Nat :=
  (List.range g.nodes.length).filter fun i =>
    match g.nodes[i]? with
    | some n => n.reads.contains value
    | none => false

theorem mem_readers {g : Graph} {value : String} {i : Nat} :
    i ∈ g.readers value ↔ ∃ n, g.nodes[i]? = some n ∧ value ∈ n.reads := by
  unfold readers
  rw [List.mem_filter, List.mem_range]
  cases h : g.nodes[i]? with
  | none => simp
  | some n =>
      have : i < g.nodes.length := by
        have := List.getElem?_eq_some_iff.1 h
        exact this.1
      simp [this]

/-- The nodes that read a value, in list order. -/
def readerNodes (g : Graph) (value : String) : List Node :=
  g.nodes.filter fun n => n.reads.contains value

end Graph

/-! ## Enclosing graphs -/

/-- Where a name is defined: as an input of a graph or by a node of it. -/
inductive Origin where
  | input (graph : Graph)
  | node (graph : Graph) (node : Node)

namespace Graph

/-- The definition of a name in the graph itself. -/
def localOrigin? (g : Graph) (name : String) : Option Origin :=
  if g.isInput name then some (.input g) else (g.producer? name).map (.node g)

/-- The definition of a name seen from a graph: its own, or else that of the nearest
enclosing graph that has one. -/
def resolve (enclosing : List Graph) (g : Graph) (name : String) : Option Origin :=
  (g :: enclosing).findSome? fun scope => scope.localOrigin? name

/-- What is known of a name seen from a graph: the nearest entry for it. -/
def info? (enclosing : List Graph) (g : Graph) (name : String) : Option ValueInfo :=
  (g :: enclosing).findSome? fun scope => scope.infos.get? name

theorem localOrigin?_isSome (g : Graph) (name : String) :
    (g.localOrigin? name).isSome = g.defines name := by
  unfold localOrigin? defines
  by_cases h : g.isInput name = true <;> simp [h]

/-! ## Names in use -/

/-- Every name of a value, a node or an entry in the graph and below it. -/
def names : Graph → List String :=
  fold fun g below =>
    g.inputs ++ g.outputs ++ g.infos.names ++
      (List.zipWith (fun n inside => n.name :: n.inputs ++ n.outputs ++ inside.flatten)
        g.nodes below).flatten

theorem names_eq (g : Graph) :
    g.names = g.inputs ++ g.outputs ++ g.infos.names ++
      g.nodes.flatMap fun n => n.name :: n.inputs ++ n.outputs ++
        n.bodies.flatMap fun body => body.2.names := by
  unfold names
  rw [fold_eq]
  simp only [List.zipWith_map_right, List.zipWith_self, List.flatMap_def]

end Graph

/-- A name outside `taken`: the base itself, or the base with the least number behind
it that makes it new. -/
def freshName (taken : List String) (base : String) : String :=
  let numbered (k : Nat) : String := base ++ "__" ++ toString (k + 1)
  if taken.contains base then
    let candidates := (List.range (taken.length + 1)).map numbered
    (candidates.find? fun name => !taken.contains name).getD base
  else base

/-- Among more candidates than names are taken, one is free. -/
private theorem exists_free (taken : List String) {candidates : List String}
    (hnodup : candidates.Nodup) (hlen : taken.length < candidates.length) :
    ∃ name ∈ candidates, name ∉ taken := by
  induction taken generalizing candidates with
  | nil =>
      cases candidates with
      | nil => simp at hlen
      | cons c cs => exact ⟨c, by simp, by simp⟩
  | cons t taken ih =>
      have hlen' : taken.length < (candidates.erase t).length := by
        have := List.length_erase (a := t) (l := candidates)
        simp only [List.length_cons] at hlen
        split at this <;> omega
      obtain ⟨name, hmem, hfree⟩ := ih (hnodup.erase t) hlen'
      have hne : name ≠ t := by
        rintro rfl
        exact hnodup.not_mem_erase hmem
      exact ⟨name, List.mem_of_mem_erase hmem, by simp [hne, hfree]⟩

private theorem toString_nat_inj {m n : Nat} (h : toString m = toString n) : m = n := by
  have h : m.repr = n.repr := h
  rw [Nat.repr_eq_ofList_toDigits, Nat.repr_eq_ofList_toDigits] at h
  have hd : Nat.toDigits 10 m = Nat.toDigits 10 n := by simpa using congrArg String.toList h
  rw [← Nat.ofDigitChars_toDigits (b := 10) (n := m) (by omega) (by omega), hd,
    Nat.ofDigitChars_toDigits (by omega) (by omega)]

/-- A fresh name is not taken. -/
theorem freshName_not_mem (taken : List String) (base : String) :
    freshName taken base ∉ taken := by
  unfold freshName
  by_cases h : taken.contains base
  · simp only [h, if_true]
    generalize hn : (fun k : Nat => base ++ "__" ++ toString (k + 1)) = numbered
    have hinj : ∀ i j, numbered i = numbered j → i = j := by
      subst hn
      intro i j hij
      have hij : base ++ "__" ++ toString (i + 1) = base ++ "__" ++ toString (j + 1) := hij
      have := toString_nat_inj (String.append_right_inj _ |>.1 hij)
      omega
    have hnodup : ((List.range (taken.length + 1)).map numbered).Nodup :=
      List.Pairwise.map _ (fun i j hne heq => hne (hinj i j heq)) List.nodup_range
    obtain ⟨name, hmem, hfree⟩ := exists_free taken hnodup (by simp)
    cases hfind : ((List.range (taken.length + 1)).map numbered).find?
        fun name => !taken.contains name with
    | none =>
        have := List.find?_eq_none.1 hfind name hmem
        simp [hfree] at this
    | some found =>
        have := List.find?_some hfind
        simpa using this
  · rw [Bool.not_eq_true] at h
    rw [h]
    simpa using h

/-- What surrounds a graph in its tree: the enclosing graphs, innermost first, and the
names that are used in the tree outside of the graph. -/
structure Surroundings where
  enclosing : List Graph := []
  reserved : List String := []

namespace Surroundings

/-- The surroundings of the root of a tree. -/
def root : Surroundings := {}

/-- A name that is new to the whole tree, when `g` is the graph in these
surroundings. -/
def fresh (s : Surroundings) (g : Graph) (base : String) : String :=
  freshName (s.reserved ++ g.names) base

/-- The surroundings of the body under `key` of the node at `place`. -/
def inside (s : Surroundings) (g : Graph) (place : Nat) (key : String) : Surroundings :=
  let hosts := g.nodes.zipIdx.map fun (n, i) =>
    if i = place then
      { n with attributes := n.attributes.filter fun entry => entry.1 != key }
    else n
  { enclosing := g :: s.enclosing, reserved := s.reserved ++ { g with nodes := hosts }.names }

end Surroundings

end TensorGraph
