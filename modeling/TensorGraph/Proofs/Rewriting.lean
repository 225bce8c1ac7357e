import TensorGraph.Optimizer.DeadNodes
import TensorGraph.Optimizer.Identities
import TensorGraph.Optimizer.Transposes
import TensorGraph.Proofs.Ordering

/-!
# Rewrites

All that the passes ever do to a graph is a handful of edits. `Edit` lists them with the
conditions under which they are made, so that what holds of every edit holds of every rule of
every pass: a node is bypassed in one of four ways, a transposition is rebased onto the value
before another one, a node that takes sizes is turned around, an operator changes places with
a transposition, and a node that nothing needs is removed.

An edit is a move when it works on transpositions, a removal when it takes an identity away, and a
cleanup when it takes away what nothing needs. Sizes that are taken from before a transposition are
neither.

## Main results

* `Rewriting.edit_of_bypass` -- a bypassed transposition is redirected, promoted or turned into
  an identity.
-/

namespace TensorGraph

/-! ## Transpositions -/

theorem resolvePermutation_ok {enclosing : List Graph} {g : Graph} {n : Node}
    {hint : Option Nat} {p : List Nat} (h : resolvePermutation enclosing g n hint = some p) :
    n.op = "Transpose" ∧ n.inputs = [n.inputs.headD ""] ∧ n.outputs = [n.outputs.headD ""] := by
  unfold resolvePermutation at h
  split at h
  · rename_i hshape
    simp only [Bool.and_eq_true, decide_eq_true_eq] at hshape
    obtain ⟨⟨hop, hin⟩, hout⟩ := hshape
    obtain ⟨x, hx⟩ := List.length_eq_one_iff.1 hin
    obtain ⟨y, hy⟩ := List.length_eq_one_iff.1 hout
    exact ⟨hop, by simp [hx], by simp [hy]⟩
  · cases h

namespace Transposes.PlacedTranspose

/-- A transposition that stands in a graph, with its permutation. -/
structure Stands (s : Surroundings) (g : Graph) (t : PlacedTranspose) : Prop where
  node : g.nodes[t.place]? = some t.node
  perm : resolvePermutation s.enclosing g t.node none = some t.perm
  present : t.source ≠ ""

namespace Stands

variable {s : Surroundings} {g : Graph} {t : PlacedTranspose} (h : t.Stands s g)

include h

theorem mem : t.node ∈ g.nodes := List.mem_of_getElem? h.node

theorem op : t.node.op = "Transpose" := (resolvePermutation_ok h.perm).1

theorem inputs : t.node.inputs = [t.source] := (resolvePermutation_ok h.perm).2.1

theorem outputs : t.node.outputs = [t.output] := (resolvePermutation_ok h.perm).2.2

theorem source_mem_reads : t.source ∈ t.node.reads :=
  Node.mem_reads.2 (.inl ⟨by simp [h.inputs], h.present⟩)

end Stands

end Transposes.PlacedTranspose

/-! ## Edits -/

namespace Rewriting

open Transposes

/-- What an edit is about. -/
inductive Kind where
  /-- Transpositions are moved. -/
  | move
  /-- Sizes are taken from before a transposition. -/
  | resize
  /-- An identity is taken away. -/
  | removal
  /-- A node that nothing needs is taken away. -/
  | cleanup
  deriving DecidableEq

/-- Reasons why the single result of the node `n` can be had from the value `new`. -/
inductive StandsFor (s : Surroundings) (g : Graph) (n : Node) (new : String) : Kind → Prop
  /-- An identity hands on what it reads. -/
  | forwarded (op : n.op = "Identity") (inputs : n.inputs = [new]) (present : new ≠ "") :
      StandsFor s g n new .removal
  /-- A transposition moves nothing. -/
  | unmoved {t : PlacedTranspose} (stands : t.Stands s g) (node : n = t.node)
      (source : new = t.source) (perm : Permutation.isIdentity t.perm = true) :
      StandsFor s g n new .move
  /-- A transposition undoes the one before it. -/
  | undone {t : PlacedTranspose} {next : List Nat} (stands : t.Stands s g)
      (resolved : resolvePermutation s.enclosing g n (some t.perm.length) = some next)
      (inputs : n.inputs = [t.output]) (source : new = t.source) (present : t.output ≠ "")
      (rank : next.length = t.perm.length)
      (perm : Permutation.isIdentity (Permutation.compose t.perm next) = true) :
      StandsFor s g n new .move
  /-- The first of two equal transpositions does what the second one does. -/
  | first {t : PlacedTranspose} (stands : t.Stands s g)
      (resolved : resolvePermutation s.enclosing g n (some t.perm.length) = some t.perm)
      (inputs : n.inputs = [t.source]) (source : new = t.output) :
      StandsFor s g n new .move
  /-- And the second one does what the first one does. -/
  | second {t : PlacedTranspose} {m : Node} (stands : t.Stands s g) (node : n = t.node)
      (mem : m ∈ g.nodes)
      (resolved : resolvePermutation s.enclosing g m (some t.perm.length) = some t.perm)
      (inputs : m.inputs = [t.source]) (outputs : m.outputs = [new]) :
      StandsFor s g n new .move

/-- The graph in which `new` is read instead of the single result `old` of the node at a
place, which is gone. -/
def redirected (g : Graph) (place : Nat) (old new : String) (infos : InfoTable) : Graph :=
  { (g.replaceInputs old new).dropNode place with infos }

/-- The transposition `consumer` of the result of `t`, rebased onto the value before `t`. -/
def rebased (t : PlacedTranspose) (consumer : Node) (next : List Nat) : Node :=
  { consumer with
    inputs := [t.source]
    attributes := Attributes.set consumer.attributes "perm"
      (.numbers (Permutation.arrange t.spelled next))
    bookmarks := [] }

/-- One change of a graph in its surroundings. -/
inductive Edit (s : Surroundings) (g : Graph) : Kind → Graph → Prop
  /-- The readers of a node's result read another value, and the node goes. -/
  | redirect {kind : Kind} {place : Nat} {n : Node} {old new : String} {infos : InfoTable}
      (node : g.nodes[place]? = some n) (outputs : n.outputs = [old])
      (inside : g.isOutput old = false) (apart : old ∉ n.reads)
      (distinct : old = new → old = "")
      (reason : StandsFor s g n new kind)
      (infos_eq : infos = g.infos.erase old ∨ infos = g.infos ∧ g.isInput old = true) :
      Edit s g kind (redirected g place old new infos)
  /-- A node that yields an output of the graph goes, and another value gets its name. -/
  | promote {kind : Kind} {place : Nat} {n : Node} {old new : String} {between after : Graph}
      (node : g.nodes[place]? = some n) (outputs : n.outputs = [old])
      (yielded : g.isOutput old = true) (produced : new ∈ g.results) (inside : g.isOutput new = false)
      (reason : StandsFor s g n new kind)
      (between_eq : between = g ∨ between = g.replaceInputs old new)
      (renamed : (between.dropNode place).renameValue new old = .ok after) :
      Edit s g kind after
  /-- A node that yields an output of the graph becomes an identity. -/
  | shim {place : Nat} {n : Node} {old new : String}
      (node : g.nodes[place]? = some n) (outputs : n.outputs = [old])
      (distinct : old = new → old = "") (reason : StandsFor s g n new .move) :
      Edit s g .move
        (g.putNode place { name := n.name, op := "Identity", inputs := [new], outputs := [old] })
  /-- An output slot of a body takes what an identity hands on. -/
  | passthrough {place : Nat} {n : Node} {old new : String} {after : Graph}
      (node : g.nodes[place]? = some n) (op : n.op = "Identity") (inputs : n.inputs = [new])
      (present : new ≠ "") (outputs : n.outputs = [old])
      (yielded : g.isOutput old = true) (apart : old ∉ n.reads)
      (other : g.isOutput new = false) (enclosed : s.enclosing ≠ [])
      (outer : new ∉ g.results)
      (rebound : ((g.replaceInputs old new).dropNode place).rebindOutput s.enclosing old new =
        .ok after) :
      Edit s g .removal after
  /-- A transposition of a transposed value is rebased onto the value itself. -/
  | rebase {t : PlacedTranspose} {place : Nat} {consumer : Node} {next : List Nat}
      (stands : t.Stands s g) (node : g.nodes[place]? = some consumer)
      (inputs : consumer.inputs = [t.output]) (present : t.output ≠ "")
      (resolved : resolvePermutation s.enclosing g consumer (some t.perm.length) = some next)
      (rank : next.length = t.perm.length) :
      Edit s g .move (g.putNode place (rebased t consumer next))
  /-- A node that takes the sizes of a transposed value takes them from the value itself. -/
  | resize {t : PlacedTranspose} {place : Nat} {n : Node}
      (stands : t.Stands s g) (node : g.nodes[place]? = some n) (takes : takesSizes t n = true)
      (present : t.output ≠ "") :
      Edit s g .resize (rebaseSizes s t g place n)
  /-- An operator changes places with the transposition before it. -/
  | relocate {t : PlacedTranspose} {place : Nat} {consumer : Node}
      {policy : Relocation.ConstantPolicy} {attributes : List (String × Attribute)}
      {plan : Relocation.Plan} {after : Graph}
      (stands : t.Stands s g) (inside : g.isOutput t.output = false)
      (readers : g.readers t.output = [place]) (node : g.nodes[place]? = some consumer)
      (outputs : consumer.outputs.length = 1) (reads : t.output ∈ consumer.inputs)
      (passage : passage? consumer t.spelled = some (policy, attributes))
      (planned : Relocation.plan s g t.source t.output t.perm policy consumer.inputs =
        .ok (some plan))
      (applied : Relocation.apply s g t.place t.node place consumer t.perm attributes plan =
        .ok after) :
      Edit s g .move after
  /-- A node that nothing needs goes. -/
  | remove {place : Nat} {after : Graph} (removed : g.removeUnreferenced? place = some after) :
      Edit s g .cleanup after

/-- Any number of edits, of which none is a move. -/
abbrev Tidying (s : Surroundings) : Graph → Graph → Prop :=
  Relation.ReflTransGen fun g h => ∃ kind, kind ≠ .move ∧ Edit s g kind h

/-- What a rule for transpositions does: one edit that moves transpositions or takes sizes from before
one, then more sizes are taken from there, and a transposition goes if nothing needs it any more. -/
def Treated (s : Surroundings) (g h : Graph) : Prop :=
  ∃ kind between rebased, (kind = .move ∨ kind = .resize) ∧ Edit s g kind between ∧
    Relation.ReflTransGen (fun g h => Edit s g .resize h) between rebased ∧
    (h = rebased ∨ ∃ n ∈ g.nodes, n.op = "Transpose" ∧
      (∃ m ∈ rebased.nodes, m.name = n.name ∧ m.op = "Transpose") ∧
      h = rebased.removeNamedIfUnreferenced n.name)

end Rewriting

/-! ## Sizes from before a transposition -/

theorem mem_set_iff {α : Type} {l : List α} {i : Nat} {a x : α} (h : i < l.length) :
    x ∈ l.set i a ↔ x = a ∨ ∃ j, j ≠ i ∧ l[j]? = some x := by
  rw [(List.set_perm_cons_eraseIdx h a).mem_iff, List.mem_cons, List.mem_eraseIdx_iff_getElem?]

/-- What is in a list stands at a place, or else at another one. -/
theorem eq_or_elsewhere {α : Type} {l : List α} {i : Nat} {a x : α} (ha : l[i]? = some a)
    (hx : x ∈ l) : a = x ∨ ∃ j, j ≠ i ∧ l[j]? = some x := by
  obtain ⟨j, hj⟩ := List.getElem?_of_mem hx
  by_cases hplace : j = i
  · exact .inl (Option.some.inj (ha.symm.trans (hplace ▸ hj)))
  · exact .inr ⟨j, hplace, hj⟩

theorem elsewhere_of_ne {α : Type} {l : List α} {i : Nat} {a x : α} (ha : l[i]? = some a)
    (hx : x ∈ l) (hne : a ≠ x) : ∃ j, j ≠ i ∧ l[j]? = some x :=
  (eq_or_elsewhere ha hx).resolve_left hne

namespace Transposes

/-- The node that takes the sizes of the value before a transposition. -/
def sizesNode (t : PlacedTranspose) (n : Node) (sizes : String) : Node :=
  { n with inputs := [t.source], outputs := [sizes], bookmarks := [] }

/-- The node that yields the order in which sizes are gathered. -/
def indicesNode (t : PlacedTranspose) (indices : String) : Node :=
  Node.constant indices indices (listLiteral t.spelled)

/-- The node that gathers sizes in the order of a transposition. -/
def gatherNode (gather sizes indices yielded : String) : Node :=
  { name := gather, op := "Gather", inputs := [sizes, indices], outputs := [yielded]
    attributes := [("axis", .number (.int 0))] }

/-- A graph in which the sizes of a transposed value are gathered from those before. The names
that are given to values and nodes are new, but the order may have got the name of the gathered
sizes, if these were in use nowhere else. -/
structure Gathered (s : Surroundings) (g : Graph) (t : PlacedTranspose) (place : Nat) (n : Node)
    (sizes indices gather : String) (h : Graph) : Prop where
  named : sizes ≠ "" ∧ indices ≠ ""
  newSizes : sizes ∉ s.reserved ∧ sizes ∉ g.names
  newIndices : indices ∉ s.reserved ∧ indices ≠ sizes ∧
    indices ∉ (g.putNode place { n with inputs := [t.source], outputs := [] }).names
  newGather : gather ∉ s.reserved ∧ gather ≠ sizes ∧ gather ≠ indices ∧
    gather ∉ (g.putNode place { n with inputs := [t.source], outputs := [] }).names
  eq : h = { g with
    nodes := g.nodes.set place (sizesNode t n sizes) ++
      [indicesNode t indices, gatherNode gather sizes indices (n.outputs.headD "")]
    infos := g.infos.set
      { name := sizes, dtype := some .int64, shape := some [some (.ofNat t.perm.length)] } }

/-- What becomes of a graph when a node takes sizes from before a transposition: the sizes are
known and become a constant, or they are gathered while the graph runs. -/
inductive Resized (s : Surroundings) (g : Graph) (t : PlacedTranspose) (place : Nat) (n : Node)
    (h : Graph) : Prop
  | known {dims : List Number} (static : staticSizes? s g t.source = some dims)
      (rank : dims.length = t.perm.length)
      (eq : h = g.putNode place (Node.constant n.name (n.outputs.headD "")
        (listLiteral (Permutation.arrange dims t.perm))))
  | gathered {sizes indices gather : String}
      (names : Gathered s g t place n sizes indices gather h)

theorem rebaseSizes_resized (s : Surroundings) (t : PlacedTranspose) (g : Graph) (place : Nat)
    (n : Node) (hn : g.nodes[place]? = some n) :
    Resized s g t place n (rebaseSizes s t g place n) := by
  obtain ⟨hlt, -⟩ := List.getElem?_eq_some_iff.1 hn
  unfold rebaseSizes
  simp only
  set sizes := s.fresh g (n.outputs.headD "" ++ "_unpermuted") with hsizes
  set sized := (g.putNode place
    { n with inputs := [t.source], outputs := [sizes], bookmarks := [] }).setInfo
    { name := sizes, dtype := some .int64, shape := some [some (.ofNat t.perm.length)] } with hsized
  set indices := s.fresh sized (n.name ++ "_perm") with hindices
  set withIndices := sized.addNode (Node.constant indices indices (listLiteral t.spelled)) with hwith
  set gather := s.fresh withIndices (n.name ++ "_gather") with hgather
  have hnewSizes := s.fresh_not_mem g (n.outputs.headD "" ++ "_unpermuted")
  have hnewIndices := s.fresh_not_mem sized (n.name ++ "_perm")
  have hnewGather := s.fresh_not_mem withIndices (n.name ++ "_gather")
  rw [← hsizes] at hnewSizes
  rw [← hindices] at hnewIndices
  rw [← hgather] at hnewGather
  have hnamed : sizes ≠ "" ∧ indices ≠ "" :=
    ⟨s.fresh_ne_empty g fun e => absurd (String.append_eq_empty_iff.1 e).2 (by decide),
      s.fresh_ne_empty sized fun e => absurd (String.append_eq_empty_iff.1 e).2 (by decide)⟩
  -- the names that were in use beside those between the transposition and the sizes
  have hbefore : (g.putNode place { n with inputs := [t.source], outputs := [] }).names ⊆
      sized.names := by
    refine Graph.names_subset (by simp [hsized, Graph.setInfo, Graph.putNode])
      (by simp [hsized, Graph.setInfo, Graph.putNode]) ?_ ?_
    · intro name hname
      exact InfoTable.mem_names_set.2 (.inl hname)
    · intro m hm
      rcases (mem_set_iff hlt).1 hm with rfl | ⟨j, hj, hm⟩
      · exact ⟨_, (mem_set_iff hlt).2 (.inl rfl), rfl, by simp, by simp, List.Subset.refl _⟩
      · exact ⟨m, (mem_set_iff hlt).2 (.inr ⟨j, hj, hm⟩), rfl, by simp, by simp, by simp⟩
  have hafter : sized.names ⊆ withIndices.names := by
    refine Graph.names_subset (by simp [hwith, Graph.addNode]) (by simp [hwith, Graph.addNode])
      (by simp [hwith, Graph.addNode]) fun m hm => ⟨m, ?_, rfl, by simp, by simp, by simp⟩
    exact List.mem_append_left _ hm
  have hsizesUsed : sizes ∈ sized.names :=
    Graph.mem_names_of_mem_node ((mem_set_iff hlt).2 (.inl rfl)) (.inr (.inr (by simp)))
  have hindicesUsed : indices ∈ withIndices.names :=
    Graph.mem_names_of_mem_node (List.mem_append_right _ (List.mem_singleton_self _)) (.inl rfl)
  have hrunning : Resized s g t place n (withIndices.addNode
      { name := gather, op := "Gather", inputs := [sizes, indices]
        outputs := [n.outputs.headD ""], attributes := [("axis", .number (.int 0))] }) := by
    refine .gathered
      { named := hnamed
        newSizes := hnewSizes
        newIndices := ⟨hnewIndices.1, fun e => hnewIndices.2 (e ▸ hsizesUsed),
          fun h => hnewIndices.2 (hbefore h)⟩
        newGather := ⟨hnewGather.1, fun e => hnewGather.2 (e ▸ hafter hsizesUsed),
          fun e => hnewGather.2 (e ▸ hindicesUsed), fun h => hnewGather.2 (hafter (hbefore h))⟩
        eq := ?_ }
    simp [hwith, hsized, Graph.addNode, Graph.setInfo, Graph.putNode, sizesNode, indicesNode,
      gatherNode]
  split
  · split
    · exact .known (by assumption) (by assumption) rfl
    · exact hrunning
  · exact hrunning

/-- Where the rank of its input is known as before, a node means the same permutation. -/
theorem resolvePermutation_congr {enclosing : List Graph} {g h : Graph} {n : Node}
    (hint : Option Nat)
    (hinfo : h.infos.get? (n.inputs.headD "") = g.infos.get? (n.inputs.headD "")) :
    resolvePermutation enclosing h n hint = resolvePermutation enclosing g n hint := by
  unfold resolvePermutation rank? Graph.info?
  rw [List.findSome?_cons, List.findSome?_cons, hinfo]

namespace Resized

variable {s : Surroundings} {g h : Graph} {t : PlacedTranspose} {place : Nat} {n : Node}

theorem getElem?_of_ne (hr : Resized s g t place n h) {j : Nat} (hj : j ≠ place) {m : Node}
    (hm : g.nodes[j]? = some m) : h.nodes[j]? = some m := by
  have hset (k : Node) : (g.nodes.set place k)[j]? = some m := by
    rwa [List.getElem?_set_ne (fun e => hj e.symm)]
  rcases hr with ⟨-, -, rfl⟩ | ⟨⟨-, -, -, -, rfl⟩⟩
  · exact hset _
  · obtain ⟨hlt, -⟩ := List.getElem?_eq_some_iff.1 (hset n)
    rw [List.length_set] at hlt
    rw [List.getElem?_append_left (by simpa using hlt)]
    exact hset _

/-- The transposition itself stays. -/
theorem stands (hr : Resized s g t place n h) (ht : t.Stands s g) (hplace : t.place ≠ place) :
    t.Stands s h := by
  refine ⟨hr.getElem?_of_ne hplace ht.node, ?_, ht.present⟩
  rw [resolvePermutation_congr (g := g)]
  · exact ht.perm
  · rcases hr with ⟨-, -, rfl⟩ | ⟨⟨-, hsizes, -, -, rfl⟩⟩
    · rfl
    · rw [InfoTable.get?_set, if_neg]
      intro e
      have hmem : t.node.inputs.headD "" ∈ t.node.inputs := by
        change t.source ∈ t.node.inputs
        simp [ht.inputs]
      rw [e] at hmem
      exact hsizes.2 (Graph.mem_names_of_mem_node ht.mem (.inr (.inl hmem)))

end Resized

end Transposes

/-! ## Rules as edits -/

theorem Graph.orStop_ok {α : Type} {g : Graph} {step : Except Failure α} {a : α}
    (h : g.orStop step = .ok a) : step = .ok a := by
  cases step with
  | error e => cases h
  | ok b => rwa [Graph.orStop, Except.ok.injEq, ← Except.ok.injEq (ε := Failure)] at h

namespace Graph

theorem getElem?_replaceInputs (g : Graph) (old new : String) (place : Nat) :
    (g.replaceInputs old new).nodes[place]? =
      g.nodes[place]?.map fun n => if old = new then n else n.replaceReads old new := by
  unfold replaceInputs
  by_cases h : old = new <;> simp [h]

/-- A node that does not read a value stays when the value is replaced. -/
theorem getElem?_replaceInputs_of_not_mem {g : Graph} {old : String} (new : String) {place : Nat}
    {n : Node} (hn : g.nodes[place]? = some n) (h : old ∉ n.reads) :
    (g.replaceInputs old new).nodes[place]? = some n := by
  rw [getElem?_replaceInputs, hn]
  split
  · rfl
  · simp [Node.replaceReads_of_not_mem new h]

@[simp] theorem isOutput_replaceInputs (g : Graph) (old new value : String) :
    (g.replaceInputs old new).isOutput value = g.isOutput value := by
  simp [isOutput]

theorem afterRewiring_of_not_mem {r : NodeRef} {old : String} (new : String)
    (h : old ∉ r.node.reads) : r.afterRewiring old new = r := by
  unfold NodeRef.afterRewiring
  rw [if_neg]
  simp [h]

/-- What is known of a value stays when other values are forgotten. -/
theorem get?_foldl_erase {names : List String} {name : String} (hname : name ∉ names) (t : InfoTable) :
    (names.foldl InfoTable.erase t).get? name = t.get? name := by
  induction names generalizing t with
  | nil => rfl
  | cons other rest ih =>
      rw [List.mem_cons, not_or] at hname
      rw [List.foldl_cons, ih hname.2, InfoTable.get?_erase, if_neg hname.1]

theorem removeUnreferenced?_eq_some {g after : Graph} {place : Nat}
    (h : g.removeUnreferenced? place = some after) :
    ∃ n, g.nodes[place]? = some n ∧
      (∀ value ∈ n.outputs, g.isUsedBeside place value = false) ∧
      after = { g.dropNode place with infos := n.outputs.foldl InfoTable.erase g.infos } := by
  unfold removeUnreferenced? at h
  split at h
  · cases h
  · rename_i n hn
    split at h
    · cases h
    · rename_i hused
      refine ⟨n, hn, fun value hvalue => ?_, (Option.some.inj h).symm⟩
      by_contra hval
      exact hused (List.any_eq_true.2 ⟨value, hvalue, by simpa using hval⟩)

/-- A node with a single result goes when it is bypassed within the graph. -/
theorem removeIfUnreferenced_rewired {g after : Graph} {place : Nat} {n : Node}
    {old new : String} (hn : g.nodes[place]? = some n) (houtputs : n.outputs = [old])
    (hapart : old ∉ n.reads)
    (h : (g.replaceInputs old new).removeIfUnreferenced
      (NodeRef.afterRewiring { node := n, place := some place } old new) = some after) :
    g.isOutput old = false ∧
      after = Rewriting.redirected g place old new (g.infos.erase old) := by
  rw [afterRewiring_of_not_mem new hapart] at h
  obtain ⟨m, hm, hunused, rfl⟩ := removeUnreferenced?_eq_some h
  obtain rfl : n = m := by
    rw [getElem?_replaceInputs_of_not_mem new hn hapart] at hm
    exact Option.some.inj hm
  refine ⟨?_, by simp [Rewriting.redirected, houtputs]⟩
  have := hunused old (by simp [houtputs])
  simp only [isUsedBeside, Bool.or_eq_false_iff, isOutput_replaceInputs] at this
  exact this.1

end Graph

namespace Rewriting

open Transposes

variable {s : Surroundings} {g : Graph}

/-- A bypassed transposition is redirected, promoted or turned into an identity. -/
theorem edit_of_bypass {place : Nat} {n : Node} {old new : String} {after : Graph} {how : Bypass}
    (hn : g.nodes[place]? = some n) (houtputs : n.outputs = [old]) (hapart : old ∉ n.reads)
    (hdistinct : old = new → old = "") (hreason : StandsFor s g n new .move)
    (h : g.bypass { node := n, place := some place } new = .ok (after, how)) :
    Edit s g .move after := by
  unfold Graph.bypass at h
  simp only [houtputs, List.head?_cons] at h
  split at h
  · split at h
    · rename_i rest hrest
      obtain ⟨hinside, rfl⟩ := Graph.removeIfUnreferenced_rewired hn houtputs hapart hrest
      cases h
      exact .redirect hn houtputs hinside hapart hdistinct hreason (.inl rfl)
    · cases h
  · rename_i hyielded
    split at h
    · rename_i hnew
      rw [Graph.afterRewiring_of_not_mem new hapart] at h
      obtain ⟨removed, hremoved, h⟩ := bind_eq_ok h
      obtain ⟨renamed, hrenamed, h⟩ := bind_eq_ok h
      cases h
      cases Graph.orStop_ok hremoved
      rw [Bool.and_eq_true, Bool.not_eq_true'] at hnew
      exact .promote hn houtputs (by simpa using hyielded)
        (Graph.producer?_isSome_iff.1 hnew.1) hnew.2 hreason (.inr rfl)
        (Graph.orStop_ok hrenamed)
    · obtain ⟨replaced, hreplaced, h⟩ := bind_eq_ok h
      cases h
      cases Graph.orStop_ok hreplaced
      exact .shim hn houtputs hdistinct hreason

/-- What the nodes are called and which operators they apply stays when values are replaced. -/
private theorem heads_replaceInputs (g : Graph) (old new : String) :
    (g.replaceInputs old new).nodes.map (fun n => (n.name, n.op)) =
      g.nodes.map fun n => (n.name, n.op) := by
  unfold Graph.replaceInputs
  split
  · rfl
  · simp [Function.comp_def]

private theorem heads_renameProduced (g : Graph) (old new : String) :
    (g.renameProduced old new).nodes.map (fun n => (n.name, n.op)) =
      g.nodes.map fun n => (n.name, n.op) := by
  unfold Graph.renameProduced
  split
  · rename_i place n hplace hn
    rw [Graph.producer?_eq, hplace, Option.bind_some] at hn
    obtain ⟨hlt, rfl⟩ := List.getElem?_eq_some_iff.1 hn
    rw [Graph.putNode, List.map_set]
    exact (congrArg _ (List.getElem_map _).symm).trans (List.set_getElem_self (by simpa using hlt))
  · rfl

private theorem heads_renameValue {g h : Graph} {old new : String}
    (hr : g.renameValue old new = .ok h) :
    h.nodes.map (fun n => (n.name, n.op)) = g.nodes.map fun n => (n.name, n.op) := by
  unfold Graph.renameValue at hr
  split at hr
  · cases hr
    rfl
  · split at hr
    · cases hr
    · cases hr
      exact (heads_replaceInputs _ old new).trans (heads_renameProduced g old new)

/-- When a node has been bypassed every other one is still there, under its name and with its
operator. -/
theorem exists_of_bypass {place other : Nat} {n m : Node} {old new : String} {after : Graph}
    {how : Bypass} (hn : g.nodes[place]? = some n) (houtputs : n.outputs = [old])
    (hapart : old ∉ n.reads) (hm : g.nodes[other]? = some m) (hother : other ≠ place)
    (h : g.bypass { node := n, place := some place } new = .ok (after, how)) :
    ∃ k ∈ after.nodes, k.name = m.name ∧ k.op = m.op := by
  have hhead : (g.nodes.map fun n => (n.name, n.op))[other]? = some (m.name, m.op) := by
    rw [List.getElem?_map, hm, Option.map_some]
  -- the node is dropped, or another one of its name stands in its place
  have hleft : (m.name, m.op) ∈ after.nodes.map fun n => (n.name, n.op) := by
    have hdropped : ∀ between : Graph, between.nodes.map (fun n => (n.name, n.op)) =
        (g.nodes.map fun n => (n.name, n.op)).eraseIdx place →
          (m.name, m.op) ∈ between.nodes.map fun n => (n.name, n.op) := by
      intro between hbetween
      rw [hbetween, List.mem_eraseIdx_iff_getElem?]
      exact ⟨other, hother, hhead⟩
    unfold Graph.bypass at h
    simp only [houtputs, List.head?_cons] at h
    split at h
    · split at h
      · rename_i rest hrest
        obtain ⟨-, rfl⟩ := Graph.removeIfUnreferenced_rewired hn houtputs hapart hrest
        cases h
        refine hdropped _ ?_
        rw [← heads_replaceInputs g old new, List.eraseIdx_map]
        rfl
      · cases h
    · split at h
      · rw [Graph.afterRewiring_of_not_mem new hapart] at h
        obtain ⟨removed, hremoved, h⟩ := bind_eq_ok h
        obtain ⟨renamed, hrenamed, h⟩ := bind_eq_ok h
        cases h
        cases Graph.orStop_ok hremoved
        refine hdropped _ ((heads_renameValue (Graph.orStop_ok hrenamed)).trans ?_)
        rw [← heads_replaceInputs g old new, List.eraseIdx_map]
        rfl
      · obtain ⟨replaced, hreplaced, h⟩ := bind_eq_ok h
        cases h
        cases Graph.orStop_ok hreplaced
        refine List.mem_map.2 ⟨m, List.mem_of_getElem? (i := other) ?_, rfl⟩
        exact (List.getElem?_set_ne fun e => hother e.symm).trans hm
  obtain ⟨k, hk, heq⟩ := List.mem_map.1 hleft
  exact ⟨k, hk, (Prod.ext_iff.1 heq).1, (Prod.ext_iff.1 heq).2⟩

end Rewriting

end TensorGraph
