import TensorGraph.Number

/-!
# Graphs

A graph connects operator instances by named values. A node may own body graphs,
held among its attributes, and a body reads names that it does not define from the
graphs around it. The tree of graphs is a plain value: a body does not point back at
its host, and whatever looks outward is given the enclosing graphs as a list,
innermost first.

Besides what a node says, it may carry bookmarks. A bookmark belongs to this very
node: whoever changes a node puts a new one without bookmarks in its place, so a
bookmark that is still found shows that the node has not been touched.

## Main results

* `InfoTable.get?_set`, `InfoTable.get?_erase` -- the table is a map from names.
* `Graph.fold_eq` -- folding a tree is one step at the graph over the folds of its
  bodies.
* `Graph.bodyInduction` -- what holds of a graph whenever it holds of its bodies holds
  of every graph.
-/

namespace TensorGraph

/-- The element types of tensors. An element type is a label that travels with the elements,
so a tensor at hand may carry any other name, or none at all. -/
inductive DType where
  | float16 | float32 | float64 | int8 | int16 | int32 | int64 | uint8 | bool
  /-- A name that is not listed. -/
  | other (name : String)
  /-- No name. -/
  | unnamed
  deriving DecidableEq, Repr, Inhabited

namespace DType

/-- The listed element types, in the order in which they are listed to users. -/
def all : List DType :=
  [.float16, .float32, .float64, .int8, .int16, .int32, .int64, .uint8, .bool]

/-- The name of an element type, if it has one. -/
def name? : DType → Option String
  | .float16 => some "float16"
  | .float32 => some "float32"
  | .float64 => some "float64"
  | .int8 => some "int8"
  | .int16 => some "int16"
  | .int32 => some "int32"
  | .int64 => some "int64"
  | .uint8 => some "uint8"
  | .bool => some "bool"
  | .other name => some name
  | .unnamed => none

/-- The name of an element type as text. -/
def text (d : DType) : String := d.name?.getD ""

/-- The listed element type of a name. -/
def ofText? (s : String) : Option DType := all.find? fun d => d.text == s

/-- The element type of a name, listed or not. -/
def ofName (s : String) : DType := (ofText? s).getD (.other s)

theorem ofText?_text {d : DType} (h : d ∈ all) : ofText? d.text = some d := by
  revert d
  decide

theorem mem_all_of_ofText? {s : String} {d : DType} (h : ofText? s = some d) :
    d ∈ all ∧ d.text = s :=
  ⟨List.mem_of_find?_eq_some h, by simpa using List.find?_some h⟩

end DType

/-- A tensor written out: its entries in row-major order. The sizes of its axes are kept as
they are written. -/
structure Literal where
  dtype : DType
  dims : List Number
  data : List Number
  deriving DecidableEq, Repr

/-- The sizes of the axes, if all of them are natural numbers. -/
def Literal.sizes? (value : Literal) : Option (List Nat) := value.dims.mapM Number.toNat?

/-- The sizes of the axes. One that is no natural number counts as zero. -/
def Literal.sizes (value : Literal) : List Nat := value.dims.map fun d => d.toNat?.getD 0

/-- What is known of a shape: nothing, or its axes, of which some may be unknown. -/
abbrev PartialShape := Option (List (Option Number))

/-- What is known of a named value. -/
structure ValueInfo where
  name : String
  dtype : Option DType := none
  shape : PartialShape := none
  deriving DecidableEq, Repr

/-- The value information of one graph, at most one entry a name. -/
structure InfoTable where
  entries : List ValueInfo
  distinct : (entries.map ValueInfo.name).Nodup
  deriving DecidableEq, Repr

namespace InfoTable

/-- The table that knows nothing. -/
def empty : InfoTable := ⟨[], List.nodup_nil⟩

/-- The entry of a name. -/
def get? (t : InfoTable) (name : String) : Option ValueInfo :=
  t.entries.find? fun info => info.name == name

/-- The table without an entry for `name`. -/
def erase (t : InfoTable) (name : String) : InfoTable where
  entries := t.entries.filter fun info => info.name != name
  distinct := t.distinct.sublist (List.filter_sublist.map _)

/-- The table in which `info` is the entry of its name: in the place of an entry of that name, or as
the last one. -/
def set (t : InfoTable) (info : ValueInfo) : InfoTable where
  entries :=
    if t.entries.any (·.name == info.name) then
      t.entries.map fun other => if other.name == info.name then info else other
    else t.entries ++ [info]
  distinct := by
    split
    · have hnames : t.entries.map (ValueInfo.name ∘ fun other =>
          if other.name == info.name then info else other) = t.entries.map ValueInfo.name := by
        refine List.map_congr_left fun other _ => ?_
        by_cases hname : other.name = info.name <;> simp [hname]
      rw [List.map_map, hnames]
      exact t.distinct
    · rename_i hnew
      rw [List.map_append, List.nodup_append]
      refine ⟨t.distinct, by simp, ?_⟩
      rintro name hname other hother rfl
      obtain ⟨entry, hentry, rfl⟩ := List.mem_map.1 hname
      exact hnew (List.any_eq_true.2 ⟨entry, hentry, by simpa using hother⟩)

/-- The names with an entry. -/
def names (t : InfoTable) : List String := t.entries.map ValueInfo.name

/-- A table of the given entries, of which later ones replace earlier ones. -/
def ofList (infos : List ValueInfo) : InfoTable := infos.foldl set empty

theorem ext {t u : InfoTable} (h : t.entries = u.entries) : t = u := by
  obtain ⟨entries, hdistinct⟩ := t
  obtain rfl : entries = u.entries := h
  rfl

@[simp] theorem get?_empty (name : String) : empty.get? name = none := rfl

theorem get?_erase (t : InfoTable) (name other : String) :
    (t.erase name).get? other = if other = name then none else t.get? other := by
  obtain ⟨entries, hdistinct⟩ := t
  simp only [erase, get?]
  clear hdistinct
  induction entries with
  | nil => simp
  | cons info infos ih =>
      by_cases hname : info.name = name
      · by_cases hother : other = name
        · simp [hother]
        · have : name ≠ other := fun h => hother h.symm
          simpa [List.filter_cons, List.find?_cons, hname, hother, this] using ih
      · by_cases hother : info.name = other
        · subst hother
          simp [hname]
        · simpa [List.filter_cons, List.find?_cons, hname, hother] using ih

theorem get?_set (t : InfoTable) (info : ValueInfo) (other : String) :
    (t.set info).get? other = if other = info.name then some info else t.get? other := by
  simp only [set, get?]
  split
  · rename_i hany
    -- an entry that is replaced keeps its name
    have hname : ∀ entry : ValueInfo,
        (if entry.name == info.name then info else entry).name = entry.name := by
      intro entry
      by_cases h : entry.name = info.name <;> simp [h]
    rw [List.find?_map]
    simp only [Function.comp_def, hname]
    cases hfound : t.entries.find? fun entry => entry.name == other with
    | none =>
        rw [if_neg]
        · rfl
        · rintro rfl
          exact absurd hany (by simpa using List.find?_eq_none.1 hfound)
    | some entry =>
        obtain rfl : entry.name = other := by simpa using List.find?_some hfound
        by_cases h : entry.name = info.name <;> simp [h]
  · rename_i hnone
    rw [List.find?_append]
    by_cases h : other = info.name
    · subst h
      rw [List.find?_eq_none.2 fun entry hentry => ?_]
      · simp
      · exact fun he => hnone (List.any_eq_true.2 ⟨entry, hentry, he⟩)
    · have hne : ¬ info.name = other := fun e => h e.symm
      simp [h, hne]

theorem mem_entries_erase {t : InfoTable} {name : String} {other : ValueInfo} :
    other ∈ (t.erase name).entries ↔ other ∈ t.entries ∧ other.name ≠ name := by
  simp [erase]

/-- The entries of a table in which one is set: that one, and those of other names. -/
theorem mem_entries_set {t : InfoTable} {info other : ValueInfo} :
    other ∈ (t.set info).entries ↔ other = info ∨ other ∈ t.entries ∧ other.name ≠ info.name := by
  simp only [set]
  split
  · rename_i hany
    obtain ⟨old, hold, hname⟩ := List.any_eq_true.1 hany
    simp only [List.mem_map, beq_iff_eq] at hname ⊢
    constructor
    · rintro ⟨entry, hentry, rfl⟩
      split
      · exact .inl rfl
      · exact .inr ⟨hentry, by assumption⟩
    · rintro (rfl | ⟨hother, hne⟩)
      · exact ⟨old, hold, if_pos hname⟩
      · exact ⟨other, hother, if_neg hne⟩
  · rename_i hnone
    have hne : ∀ entry ∈ t.entries, entry.name ≠ info.name := fun entry hentry hname =>
      hnone (List.any_eq_true.2 ⟨entry, hentry, by simpa using hname⟩)
    rw [List.mem_append, List.mem_singleton, or_comm]
    exact or_congr_right ⟨fun h => ⟨h, hne other h⟩, And.left⟩

end InfoTable

mutual

/-- What an attribute of a node holds. -/
inductive Attribute where
  | number (x : Number)
  | text (s : String)
  | numbers (xs : List Number)
  | literal (value : Literal)
  | body (g : Graph)

/-- An operator instance. An input that is the empty name is absent. -/
structure Node where
  name : String
  op : String
  inputs : List String
  outputs : List String
  attributes : List (String × Attribute) := []
  bookmarks : List Nat := []

/-- Nodes with the names that come in and go out, and what is known of the values. -/
structure Graph where
  name : String := "graph"
  inputs : List String := []
  outputs : List String := []
  infos : InfoTable := InfoTable.empty
  nodes : List Node := []

end

instance : Inhabited Attribute := ⟨.text ""⟩
instance : Inhabited Node := ⟨{ name := "", op := "", inputs := [], outputs := [] }⟩
instance : Inhabited Graph := ⟨{}⟩

/-! ## Attributes -/

namespace Attribute

/-- The body graph in an attribute. -/
def body? : Attribute → Option Graph
  | .body g => some g
  | _ => none

end Attribute

namespace Node

/-- The attribute under a key. -/
def attribute? (n : Node) (key : String) : Option Attribute := n.attributes.lookup key

/-- The number under a key. -/
def number? (n : Node) (key : String) : Option Number :=
  match n.attribute? key with
  | some (.number x) => some x
  | _ => none

/-- The list of numbers under a key. -/
def numbers? (n : Node) (key : String) : Option (List Number) :=
  match n.attribute? key with
  | some (.numbers xs) => some xs
  | _ => none

/-- The literal tensor under a key. -/
def literal? (n : Node) (key : String) : Option Literal :=
  match n.attribute? key with
  | some (.literal value) => some value
  | _ => none

/-- The body graph under a key. -/
def body? (n : Node) (key : String) : Option Graph := (n.attribute? key).bind Attribute.body?

/-- The body graphs with their keys, in the order of the attributes. -/
def bodies (n : Node) : List (String × Graph) :=
  n.attributes.filterMap fun (key, value) => value.body?.map (key, ·)

/-- The value of a node that is nothing but a literal. -/
def constant? (n : Node) : Option Literal :=
  if n.op = "Constant" && n.inputs.isEmpty && n.outputs.length = 1 then n.literal? "value"
  else none

end Node

namespace Attributes

/-- The attributes with `value` under `key`: in the place of an attribute of that key,
or as the last one. -/
def set (attributes : List (String × Attribute)) (key : String) (value : Attribute) :
    List (String × Attribute) :=
  if attributes.any (·.1 == key) then
    attributes.map fun (k, v) => if k == key then (k, value) else (k, v)
  else attributes ++ [(key, value)]

/-- The attributes with their body graphs replaced by the given ones, in order. Bodies
for which no graph is given stay. -/
def withBodies : List (String × Attribute) → List Graph → List (String × Attribute)
  | [], _ => []
  | (key, .body g) :: rest, [] => (key, .body g) :: withBodies rest []
  | (key, .body _) :: rest, b :: bs => (key, .body b) :: withBodies rest bs
  | (key, .number x) :: rest, bs => (key, .number x) :: withBodies rest bs
  | (key, .text s) :: rest, bs => (key, .text s) :: withBodies rest bs
  | (key, .numbers xs) :: rest, bs => (key, .numbers xs) :: withBodies rest bs
  | (key, .literal v) :: rest, bs => (key, .literal v) :: withBodies rest bs

end Attributes

namespace Node

/-- The node with its body graphs replaced by the given ones, in order. -/
def withBodies (n : Node) (bodies : List Graph) : Node :=
  { n with attributes := Attributes.withBodies n.attributes bodies }

/-- The node with every body graph changed by `f`. -/
def mapBodies (f : Graph → Graph) (n : Node) : Node :=
  n.withBodies (n.bodies.map fun body => f body.2)

/-- A node that yields a literal tensor. -/
def constant (name output : String) (value : Literal) : Node :=
  { name, op := "Constant", inputs := [], outputs := [output],
    attributes := [("value", .literal value)] }

end Node

/-! ## Trees of graphs -/

section Fold

variable {α : Type}

mutual

/-- Folds a tree of graphs: the step sees a graph and, node by node, the results of the
bodies that the node owns, in the order of its attributes. -/
def Graph.fold (step : Graph → List (List α) → α) : Graph → α
  | ⟨name, inputs, outputs, infos, nodes⟩ =>
      step ⟨name, inputs, outputs, infos, nodes⟩ (Graph.foldNodes step nodes)

/-- The results of the bodies of each node. -/
def Graph.foldNodes (step : Graph → List (List α) → α) : List Node → List (List α)
  | [] => []
  | ⟨_, _, _, _, attributes, _⟩ :: rest =>
      Graph.foldAttributes step attributes :: Graph.foldNodes step rest

/-- The results of the bodies among the attributes. -/
def Graph.foldAttributes (step : Graph → List (List α) → α) :
    List (String × Attribute) → List α
  | [] => []
  | (_, .body g) :: rest => Graph.fold step g :: Graph.foldAttributes step rest
  | (_, .number _) :: rest => Graph.foldAttributes step rest
  | (_, .text _) :: rest => Graph.foldAttributes step rest
  | (_, .numbers _) :: rest => Graph.foldAttributes step rest
  | (_, .literal _) :: rest => Graph.foldAttributes step rest

end

theorem Graph.foldAttributes_eq (step : Graph → List (List α) → α)
    (attributes : List (String × Attribute)) :
    Graph.foldAttributes step attributes =
      (attributes.filterMap fun (key, value) => value.body?.map (key, ·)).map
        fun body => Graph.fold step body.2 := by
  induction attributes with
  | nil => rfl
  | cons entry rest ih =>
      obtain ⟨key, value⟩ := entry
      cases value <;> simp [Graph.foldAttributes, Attribute.body?, ih]

theorem Graph.foldNodes_eq (step : Graph → List (List α) → α) (nodes : List Node) :
    Graph.foldNodes step nodes =
      nodes.map fun n => n.bodies.map fun body => Graph.fold step body.2 := by
  induction nodes with
  | nil => rfl
  | cons n rest ih =>
      obtain ⟨name, op, inputs, outputs, attributes, bookmarks⟩ := n
      simp only [Graph.foldNodes, List.map_cons, ih, Graph.foldAttributes_eq]
      rfl

/-- One step of a fold: the graph and the folds of its bodies. -/
theorem Graph.fold_eq (step : Graph → List (List α) → α) (g : Graph) :
    g.fold step = step g (g.nodes.map fun n => n.bodies.map fun body => body.2.fold step) := by
  obtain ⟨name, inputs, outputs, infos, nodes⟩ := g
  simp only [Graph.fold, Graph.foldNodes_eq]

end Fold

section Induction

variable {motive : Graph → Prop}

mutual

private theorem inductGraph
    (step : ∀ g : Graph, (∀ n ∈ g.nodes, ∀ body ∈ n.bodies, motive body.2) → motive g) :
    ∀ g : Graph, motive g
  | ⟨name, inputs, outputs, infos, nodes⟩ =>
      step ⟨name, inputs, outputs, infos, nodes⟩ (inductNodes step nodes)

private theorem inductNodes
    (step : ∀ g : Graph, (∀ n ∈ g.nodes, ∀ body ∈ n.bodies, motive body.2) → motive g) :
    ∀ nodes : List Node, ∀ n ∈ nodes, ∀ body ∈ n.bodies, motive body.2
  | [] => by simp
  | ⟨name, op, inputs, outputs, attributes, bookmarks⟩ :: rest => by
      intro n hn body hbody
      rcases List.mem_cons.1 hn with rfl | hn
      · exact inductAttributes step attributes body hbody
      · exact inductNodes step rest n hn body hbody

private theorem inductAttributes
    (step : ∀ g : Graph, (∀ n ∈ g.nodes, ∀ body ∈ n.bodies, motive body.2) → motive g) :
    ∀ attributes : List (String × Attribute),
      ∀ body ∈ attributes.filterMap fun (key, value) => value.body?.map (key, ·), motive body.2
  | [] => by simp
  | (key, .body g) :: rest => by
      intro body hbody
      rw [List.filterMap_cons] at hbody
      rcases List.mem_cons.1 hbody with rfl | hbody
      · exact inductGraph step g
      · exact inductAttributes step rest body hbody
  | (key, .number x) :: rest => fun body hbody =>
      inductAttributes step rest body (by simpa [Attribute.body?] using hbody)
  | (key, .text s) :: rest => fun body hbody =>
      inductAttributes step rest body (by simpa [Attribute.body?] using hbody)
  | (key, .numbers xs) :: rest => fun body hbody =>
      inductAttributes step rest body (by simpa [Attribute.body?] using hbody)
  | (key, .literal v) :: rest => fun body hbody =>
      inductAttributes step rest body (by simpa [Attribute.body?] using hbody)

end

/-- Induction over a tree of graphs, innermost graphs first. -/
theorem Graph.bodyInduction
    (step : ∀ g : Graph, (∀ n ∈ g.nodes, ∀ body ∈ n.bodies, motive body.2) → motive g)
    (g : Graph) : motive g :=
  inductGraph step g

end Induction

namespace Graph

/-- A graph from its parts. What is known of the outputs replaces what is known of the
inputs under the same name, and both replace other value information. -/
def assemble (name : String) (inputs outputs valueInfo : List ValueInfo) (nodes : List Node) :
    Graph :=
  { name, nodes
    inputs := inputs.map ValueInfo.name
    outputs := outputs.map ValueInfo.name
    infos := InfoTable.ofList (valueInfo ++ inputs ++ outputs) }

/-- What the graph's own table knows of a name, or just the name. -/
def infoOf (g : Graph) (name : String) : ValueInfo := (g.infos.get? name).getD { name }

theorem name_infoOf (g : Graph) (name : String) : (g.infoOf name).name = name := by
  unfold infoOf
  cases hfound : g.infos.get? name with
  | none => rfl
  | some info => simpa using List.find?_some hfound

/-- The inputs with what is known of them. -/
def inputInfos (g : Graph) : List ValueInfo := g.inputs.map g.infoOf

/-- The outputs with what is known of them. -/
def outputInfos (g : Graph) : List ValueInfo := g.outputs.map g.infoOf

/-- The body graphs of a graph: the host, the key, and the body. -/
def subgraphs (g : Graph) : List (Node × String × Graph) :=
  g.nodes.flatMap fun n => n.bodies.map fun (key, body) => (n, key, body)

/-- The graph and all graphs below it, each after its bodies. -/
def walk : Graph → List Graph :=
  fold fun g below => (below.map List.flatten).flatten ++ [g]

/-- The first node of a name. -/
def node? (g : Graph) (name : String) : Option Node := g.nodes.find? fun n => n.name == name

/-- The place of the first node of a name. -/
def place? (g : Graph) (name : String) : Option Nat := g.nodes.findIdx? fun n => n.name == name

end Graph

end TensorGraph
