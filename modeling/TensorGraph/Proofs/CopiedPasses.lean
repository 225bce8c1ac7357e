import TensorGraph.Json.Printer
import TensorGraph.Proofs.BareTrees
import TensorGraph.Proofs.FaithfulCopies
import TensorGraph.Proofs.Resting

/-!
# What passes do to copies

Identities and dead nodes are found by the wiring, which a copy shares, so as many are removed from it.
Transpositions are moved by what is known of ranks, and a copy knows less of some. A transposition
without a permutation may no longer be resolved in it, and nothing else is made possible by knowing
less: two ranks that contradict each other would keep a transposition from being absorbed, but in a
valid tree no rank contradicts a permutation. So a copy of a settled tree is settled, and a tree of
which a copy is settled is settled itself where the copy knows the same.

More is not the same even there. An entry that was made up takes a name, and a node that a pass adds is
then called otherwise in the copy.

## Main results

* `Settled.clone` -- a copy of a valid settled tree is settled.
* `Settled.of_clone` -- where the copy knows the same, a tree is settled if its copy is.
* `Graph.clone_reached` -- copies of what passes make of a graph that was read.
-/

namespace TensorGraph

open TensorGraph.Graph Rewriting

/-- Whether a treatment that leaves a graph of a valid tree as it is leaves its copy as it is. -/
def SparesCopies (visit : Surroundings → Graph → Sweep) : Prop :=
  ∀ s s' g, g.scopeIssues s.enclosing = [] → s'.enclosing = s.enclosing.map clone →
    visit s g = { graph := g } → visit s' g.clone = { graph := g.clone }

/-- Whether a treatment that leaves the copy of a graph of a valid tree as it is leaves the graph as it
is, given what `Known` says of the graph. -/
def SparesOriginals (Known : List Graph → Graph → Prop) (visit : Surroundings → Graph → Sweep) : Prop :=
  ∀ s s' g, g.scopeIssues s.enclosing = [] → s'.enclosing = s.enclosing.map clone →
    Known s.enclosing g → visit s' g.clone = { graph := g.clone } → visit s g = { graph := g }

/-- A copy of a valid settled tree is settled. -/
theorem Settled.clone {visit : Surroundings → Graph → Sweep} (hvisit : SparesCopies visit)
    {s s' : Surroundings} {g : Graph} (h : Settled visit s g) (hvalid : g.issuesIn s.enclosing = [])
    (hs : s'.enclosing = s.enclosing.map Graph.clone) : Settled visit s' g.clone := by
  induction h generalizing s' with
  | @intro s g here _ ih =>
      rw [issuesIn_eq, List.append_eq_nil_iff] at hvalid
      refine .intro (hvisit s s' g hvalid.1 hs here) fun place key body hbody => ?_
      obtain ⟨old, hold, rfl⟩ := hasBody_clone hbody
      refine ih place key old hold ?_ (by simp [Surroundings.inside, hs])
      obtain ⟨n, hn, hmem⟩ := hold
      exact List.flatMap_eq_nil_iff.1
        (List.flatMap_eq_nil_iff.1 hvalid.2 n (List.mem_of_getElem? hn)) (key, old) hmem

/-- A valid tree is settled if its copy is, given what is asked of its graphs. -/
theorem Settled.of_clone {Known : List Graph → Graph → Prop} {visit : Surroundings → Graph → Sweep}
    (hvisit : SparesOriginals Known visit) {s s' : Surroundings} {g : Graph}
    (hknown : EveryScope Known s.enclosing g) (hvalid : g.issuesIn s.enclosing = [])
    (hs : s'.enclosing = s.enclosing.map Graph.clone) (h : Settled visit s' g.clone) :
    Settled visit s g := by
  induction g using bodyInduction generalizing s s' with
  | step g ih =>
      cases h with
      | intro here below =>
          rw [issuesIn_eq, List.append_eq_nil_iff] at hvalid
          refine .intro (hvisit s s' g hvalid.1 hs hknown.here here) fun place key body hbody => ?_
          have hcopy := below place key body.clone hbody.clone
          obtain ⟨n, hn, hmem⟩ := hbody
          have hn := List.mem_of_getElem? hn
          exact ih n hn (key, body) hmem (hknown.body hn hmem)
            (List.flatMap_eq_nil_iff.1 (List.flatMap_eq_nil_iff.1 hvalid.2 n hn) (key, body) hmem)
            (by simp [Surroundings.inside, hs]) hcopy

/-! ## Passes that look at the wiring alone -/

section Oblivious

variable {visit : Surroundings → Graph → Sweep}

private theorem isEmpty_of_clone {s s' : Surroundings}
    (hs : s'.enclosing = s.enclosing.map Graph.clone) : s.enclosing.isEmpty = s'.enclosing.isEmpty := by
  rw [hs, List.isEmpty_map]

theorem Oblivious.sparesCopies (hvisit : Oblivious visit) (hhonest : Honest visit) :
    SparesCopies visit := fun _ _ g _ hs hleft =>
  hvisit.eq_start hhonest (isEmpty_of_clone hs) (bare_clone g).symm hleft

theorem Oblivious.sparesOriginals (hvisit : Oblivious visit) (hhonest : Honest visit) :
    SparesOriginals (fun _ _ => True) visit := fun _ _ g _ hs _ hleft =>
  hvisit.eq_start hhonest (isEmpty_of_clone hs).symm (bare_clone g) hleft

end Oblivious

/-! ## Transpositions -/

section Resolved

variable {enclosing : List Graph} {g : Graph} {n : Node}

/-- With a rank at hand a permutation is resolved in a copy as in the graph itself. -/
private theorem resolvePermutation_clone_hint (rank : Nat) :
    resolvePermutation (enclosing.map clone) g.clone n.copied (some rank) =
      resolvePermutation enclosing g n (some rank) := by
  simp only [resolvePermutation, Node.op_copied, Node.inputs_copied, Node.outputs_copied,
    Node.numbers?_copied, Option.some_or]
  rfl

/-- What is resolved in a copy is resolved in the graph itself to the same permutation. -/
private theorem resolvePermutation_clone (enclosing : List Graph) (g : Graph) (n : Node) :
    resolvePermutation (enclosing.map clone) g.clone n.copied none = none ∨
      resolvePermutation (enclosing.map clone) g.clone n.copied none =
        resolvePermutation enclosing g n none := by
  unfold resolvePermutation
  simp only [Node.op_copied, Node.inputs_copied, Node.outputs_copied, Node.numbers?_copied,
    Option.none_or]
  rcases g.rank?_clone enclosing (n.inputs.headD "") with hrank | hrank
  · rw [hrank]
    cases n.numbers? "perm" with
    | some xs => exact .inr rfl
    | none => exact .inl (by simp)
  · rw [hrank]
    exact .inr rfl

/-- In a valid graph the rank of a transposed value, where it is known, is that of the permutation. -/
private theorem rank?_of_resolved {perm : List Nat}
    (hvalid : g.transposeProblems enclosing n = [])
    (h : resolvePermutation enclosing g n none = some perm) :
    rank? enclosing g (n.inputs.headD "") = none ∨
      rank? enclosing g (n.inputs.headD "") = some perm.length := by
  unfold resolvePermutation at h
  split at h
  · split at h
    · rename_i xs hxs
      unfold transposeProblems at hvalid
      simp only [hxs, h, Option.isNone_some, Bool.false_eq_true, if_false] at hvalid
      unfold rank?
      split at hvalid
      · rename_i shape hshape
        split at hvalid
        · rename_i hlength
          rw [hshape, Permutation.length_of_ofNumbers? h, ← hlength]
          exact .inr rfl
        · cases hvalid
      · rename_i hshape
        rw [hshape]
        exact .inl rfl
    · obtain ⟨rank, hrank, rfl⟩ := Option.map_eq_some_iff.1 h
      rw [Option.none_or] at hrank
      exact .inr (by rw [hrank, Permutation.length_reversed])
  · cases h

end Resolved

namespace Relocation

variable {s s' : Surroundings} {g : Graph} {perm : List Nat}

/-- What is found to be transposed equally in a copy is so in the graph itself. -/
private theorem equallyTransposed?_clone (perm : List Nat) (hs : s'.enclosing = s.enclosing.map clone)
    (hvalid : ∀ n ∈ g.nodes, n.op = "Transpose" → g.transposeProblems s.enclosing n = [])
    (value : String) :
    equallyTransposed? s' g.clone perm value = none ∨
      equallyTransposed? s' g.clone perm value = equallyTransposed? s g perm value := by
  unfold equallyTransposed?
  rw [producer?_clone, hs]
  cases hproducer : g.producer? value with
  | none => exact .inl rfl
  | some n =>
      simp only [Option.map_some, Node.inputs_copied, Node.name_copied]
      rcases resolvePermutation_clone s.enclosing g n with hnone | hsame
      · exact .inl (by simp [hnone])
      · rw [hsame]
        by_cases hperm : resolvePermutation s.enclosing g n none = some perm
        · have hrank := rank?_of_resolved
            (hvalid n (producer?_eq_some hproducer).1 ((resolvePermutation_ok hperm).1)) hperm
          have hclone : rank? (s.enclosing.map clone) g.clone (n.inputs.headD "") = none ∨
              rank? (s.enclosing.map clone) g.clone (n.inputs.headD "") = some perm.length :=
            (g.rank?_clone s.enclosing (n.inputs.headD "")).elim .inl fun h => h ▸ hrank
          refine .inr ((if_pos ?_).trans (if_pos ?_).symm)
          · rw [Bool.and_eq_true, Bool.or_eq_true]
            exact ⟨decide_eq_true hperm, hclone.imp (fun h => decide_eq_true h) fun h => decide_eq_true h⟩
          · rw [Bool.and_eq_true, Bool.or_eq_true]
            exact ⟨decide_eq_true hperm, hrank.imp (fun h => decide_eq_true h) fun h => decide_eq_true h⟩
        · exact .inl (by simp [hperm])

private theorem operand?_clone (perm : List Nat) (hs : s'.enclosing = s.enclosing.map clone)
    (hvalid : ∀ n ∈ g.nodes, n.op = "Transpose" → g.transposeProblems s.enclosing n = [])
    (source transposed : String) (policy : ConstantPolicy) (value : String) :
    Agree (operand? s g source transposed perm policy value)
      (operand? s' g.clone source transposed perm policy value) :=
  operand?_agree (equallyTransposed?_clone perm hs hvalid value)
    (by simp [producer?_clone, Function.comp_def])

/-- Where a copy knows the same, the same is found to be transposed equally. -/
private theorem equallyTransposed?_of_knownAlike (hs : s'.enclosing = s.enclosing.map clone)
    (hknown : KnownAlike s.enclosing g) (perm : List Nat) (value : String) :
    equallyTransposed? s' g.clone perm value = equallyTransposed? s g perm value := by
  unfold equallyTransposed?
  rw [producer?_clone, hs]
  cases g.producer? value with
  | none => rfl
  | some n =>
      simp only [Option.map_some, Node.inputs_copied, Node.name_copied, hknown.resolvePermutation,
        hknown.rank?]

end Relocation

namespace Transposes

variable {s s' : Surroundings} {g : Graph}

private theorem takesSizes_copied (t : PlacedTranspose) (n : Node) :
    takesSizes t n.copied = takesSizes t n := by
  simp [takesSizes, Node.attribute?_copied]

private theorem remapAxes_copied (n : Node) (rule : AxisRule) (perm : List Number) :
    (remapAxes n.copied rule perm).isSome = (remapAxes n rule perm).isSome := by
  unfold remapAxes
  simp only [Node.number?_copied, Node.attribute?_copied]
  split
  · rfl
  · cases rule.namedBy <;> cases n.attribute? _ with
    | none => rfl
    | some value => cases value <;> simp [Attribute.mapBody]

/-- A transposition passes through a copied operator as through the operator itself. -/
private theorem passage?_copied (consumer : Node) (perm : List Number) :
    (passage? consumer.copied perm).map Prod.fst = (passage? consumer perm).map Prod.fst := by
  unfold passage?
  rw [Node.op_copied, Node.inputs_copied]
  cases Capability.ofOp consumer.op with
  | unary =>
      simp only
      split <;> rfl
  | broadcast => rfl
  | axes rule =>
      have hremap := remapAxes_copied consumer rule perm
      simp only
      split
      · rfl
      · cases hcopied : remapAxes consumer.copied rule perm <;>
          cases horiginal : remapAxes consumer rule perm <;> simp_all
  | shape => rfl
  | barrier => rfl

/-- A copy of a valid graph resembles it. -/
private theorem resembling_clone (hs : s'.enclosing = s.enclosing.map clone)
    (hvalid : g.scopeIssues s.enclosing = []) : Resembling s g s' g.clone Node.copied id where
  nodes k := by rw [nodes_clone, List.mem_map]
  yielded value _ hout := by rwa [isOutput, outputs_clone]
  name n _ := Node.name_copied n
  outputs n _ := Node.outputs_copied n
  inputs n _ := by rw [Node.inputs_copied, List.map_id]
  kept _ _ _ := .rfl
  turned n _ _ := Node.inputs_copied n
  reads n _ value _ := by rw [Node.reads_copied]
  spelled n _ perm := by rw [spelledPermutation, Node.numbers?_copied, spelledPermutation]
  sizes n _ t _ := takesSizes_copied t n
  passage n _ := passage?_copied n
  resolved n _ := hs ▸ resolvePermutation_clone s.enclosing g n
  ranked n _ rank := hs ▸ resolvePermutation_clone_hint rank
  operand source transposed perm policy value _ := Relocation.operand?_clone perm hs
    (fun _ hn => (operatorProblems_eq_nil_iff.1 (operatorProblems_of_scopeIssues hvalid hn)).2)
    source transposed policy value

theorem sparesCopies_sweepGraph : SparesCopies sweepGraph := by
  intro s s' g hvalid hs h
  have hnames := (Scoped.of_scopeIssues hvalid).names
  have hnames' : (g.clone.nodes.map Node.name).Nodup := by
    rw [nodes_clone, List.map_map]
    exact hnames
  obtain ⟨horder, hrest⟩ := step_eq_none_iff.1 (eq_none_of_clean (h ▸ Sweep.clean_start g))
  exact sweepGraph_of_eq_none (step_eq_none_iff.2 ⟨by simpa using horder,
    fun _ _ hn => (resembling_clone hs hvalid).treat_eq_none hnames hnames' hrest hn⟩)

/-- The node of a graph that has the name of another one. -/
private def named (g : Graph) (k : Node) : Node := (g.nodes.find? (·.name == k.name)).getD k

private theorem named_copied (hnames : (g.nodes.map Node.name).Nodup) {n : Node} (hn : n ∈ g.nodes) :
    named g n.copied = n := by
  have hsome : (g.nodes.find? (·.name == n.copied.name)).isSome = true :=
    List.find?_isSome.2 ⟨n, hn, beq_self_eq_true n.name⟩
  obtain ⟨m, hm⟩ := Option.isSome_iff_exists.1 hsome
  have hname : (m.name == n.copied.name) = true :=
    List.find?_some (p := fun k : Node => k.name == n.copied.name) hm
  rw [named, hm, Option.getD_some]
  exact List.inj_on_of_nodup_map hnames (List.mem_of_find?_eq_some hm) hn (eq_of_beq hname)

/-- A graph whose nodes have different names resembles a copy that knows the same. -/
private theorem resembling_of_clone (hs : s'.enclosing = s.enclosing.map clone)
    (hnames : (g.nodes.map Node.name).Nodup) (hknown : KnownAlike s.enclosing g) :
    Resembling s' g.clone s g (named g) id := by
  have hnode : ∀ {P : Node → Node → Prop}, (∀ n ∈ g.nodes, P n.copied n) →
      ∀ k ∈ g.clone.nodes, P k (named g k) := by
    intro P hP k hk
    rw [nodes_clone, List.mem_map] at hk
    obtain ⟨n, hn, rfl⟩ := hk
    rw [named_copied hnames hn]
    exact hP n hn
  exact
    { nodes := fun k => by
        simp only [nodes_clone, List.mem_map, exists_exists_and_eq_and]
        constructor
        · exact fun hk => ⟨k, hk, named_copied hnames hk⟩
        · rintro ⟨n, hn, rfl⟩
          rwa [named_copied hnames hn]
      yielded := fun value _ hout => by rwa [isOutput, outputs_clone] at hout
      name := hnode (P := fun k m => m.name = k.name) fun n _ => (Node.name_copied n).symm
      outputs := hnode (P := fun k m => m.outputs = k.outputs) fun n _ => (Node.outputs_copied n).symm
      inputs := hnode (P := fun k m => m.inputs = k.inputs.map id) fun n _ => by
        rw [List.map_id, Node.inputs_copied]
      kept := fun _ _ _ => .rfl
      turned := hnode (P := fun k m => k.op = "Transpose" → m.inputs = k.inputs) fun n _ _ =>
        (Node.inputs_copied n).symm
      reads := hnode (P := fun k m => ∀ value ∈ g.clone.results, value ∈ m.reads ↔ value ∈ k.reads)
        fun n _ value _ => by rw [Node.reads_copied]
      spelled := hnode (P := fun k m => ∀ perm, spelledPermutation m perm = spelledPermutation k perm)
        fun n _ perm => by rw [spelledPermutation, spelledPermutation, Node.numbers?_copied]
      sizes := hnode (P := fun k m => ∀ t : PlacedTranspose, t.output ∈ g.clone.results →
        takesSizes t m = takesSizes t k) fun n _ t _ => (takesSizes_copied t n).symm
      passage := hnode (P := fun k m => ∀ perm,
        (passage? m perm).map Prod.fst = (passage? k perm).map Prod.fst)
        fun n _ perm => (passage?_copied n perm).symm
      resolved := hnode (P := fun k m => resolvePermutation s.enclosing g m none = none ∨
        resolvePermutation s.enclosing g m none = resolvePermutation s'.enclosing g.clone k none)
        fun n _ => .inr (by rw [hs, hknown.resolvePermutation])
      ranked := hnode (P := fun k m => ∀ rank, resolvePermutation s.enclosing g m (some rank) =
        resolvePermutation s'.enclosing g.clone k (some rank))
        fun n _ rank => by rw [hs, hknown.resolvePermutation]
      operand := fun source transposed perm policy value _ => Relocation.operand?_agree
        (.inr (Relocation.equallyTransposed?_of_knownAlike hs hknown perm value).symm)
        (by simp [producer?_clone, Function.comp_def]) }

theorem sparesOriginals_sweepGraph : SparesOriginals KnownAlike sweepGraph := by
  intro s s' g hvalid hs hknown h
  have hnames := (Scoped.of_scopeIssues hvalid).names
  have hnames' : (g.clone.nodes.map Node.name).Nodup := by
    rw [nodes_clone, List.map_map]
    exact hnames
  obtain ⟨horder, hrest⟩ := step_eq_none_iff.1 (eq_none_of_clean (h ▸ Sweep.clean_start g.clone))
  exact sweepGraph_of_eq_none (step_eq_none_iff.2 ⟨by simpa using horder,
    fun _ _ hn => (resembling_of_clone hs hnames hknown).treat_eq_none hnames' hnames hrest hn⟩)

end Transposes

/-! ## Passes -/

namespace Pass

variable {pass : Pass} {g : Graph}

theorem sparesCopies_of_mem_treatments {visit : Surroundings → Graph → Sweep}
    (h : visit ∈ treatments) : SparesCopies visit := by
  simp only [treatments, List.mem_cons, List.not_mem_nil, or_false] at h
  rcases h with rfl | rfl | rfl
  · exact Transposes.sparesCopies_sweepGraph
  · exact Identities.oblivious_sweepGraph.sparesCopies Identities.honest_sweepGraph
  · exact DeadNodes.oblivious_sweepGraph.sparesCopies DeadNodes.honest_sweepGraph

/-- A pass that finds nothing to do in a valid graph finds nothing to do in its copy. -/
theorem SettledAt.clone (hpass : pass ∈ registry) (hvalid : g.IsValid) (hkeyed : KeyedTree g)
    (h : pass.SettledAt g) : pass.SettledAt g.clone := by
  obtain ⟨visit, hmem, hvisit⟩ := eq_ofVisit hpass
  rw [hvisit] at h ⊢
  have hsettled := (settledAt_ofVisit_iff (honest_of_mem_treatments hmem) hkeyed).1 h
  exact settledAt_ofVisit pass.name (keyedTree_clone hkeyed)
    (hsettled.clone (sparesCopies_of_mem_treatments hmem) hvalid rfl)

/-- A pass that finds nothing to do in the copy of a valid graph finds nothing to do in the graph. Where
it moves transpositions this takes that the copy knows the same. -/
theorem SettledAt.of_clone (hpass : pass ∈ registry) (hvalid : g.IsValid) (hkeyed : KeyedTree g)
    (hknown : pass = transpose → EveryScope KnownAlike [] g) (h : pass.SettledAt g.clone) :
    pass.SettledAt g := by
  have hsettled : ∀ {Known : List Graph → Graph → Prop} {visit : Surroundings → Graph → Sweep}
      {name : String}, Honest visit → SparesOriginals Known visit → EveryScope Known [] g →
      (ofVisit name visit).SettledAt g.clone → (ofVisit name visit).SettledAt g := by
    intro Known visit name hhonest hspares hknown h
    rw [settledAt_ofVisit_iff hhonest (keyedTree_clone hkeyed)] at h
    exact settledAt_ofVisit name hkeyed (.of_clone hspares hknown hvalid rfl h)
  simp only [registry, List.mem_cons, List.not_mem_nil, or_false] at hpass
  rcases hpass with rfl | rfl | rfl
  · exact hsettled Transposes.honest_sweepGraph Transposes.sparesOriginals_sweepGraph (hknown rfl) h
  · exact hsettled Identities.honest_sweepGraph
      (Identities.oblivious_sweepGraph.sparesOriginals Identities.honest_sweepGraph)
      (.of_forall (fun _ _ => trivial) [] g) h
  · exact hsettled DeadNodes.honest_sweepGraph
      (DeadNodes.oblivious_sweepGraph.sparesOriginals DeadNodes.honest_sweepGraph)
      (.of_forall (fun _ _ => trivial) [] g) h

end Pass

namespace Graph

variable {g : Graph}

/-! ## Read, changed and copied -/

/-- A graph that was read is its own copy. What passes make of it has copies with the same wiring. The
copies know the same of all values just if nothing that is made up hides anything, and then they have the
same issues, form and permutations; of a valid graph they have the same issues and form anyway. As many
identities and dead nodes are removed from the copy, and the wiring is the same after that. A pass that
finds nothing to do in a valid graph finds nothing to do in the copy, and the other way round, where it
moves transpositions if the copy knows the same. The copies are the graph itself, and so do the same under
every pass, just if nothing is made up. -/
theorem clone_reached {j : Option Json} {h : Graph} (hread : ofJson j = .ok g)
    (hr : Pass.Reached g h) :
    g.clone = g ∧ EveryScope WiredAlike [] h ∧
      (EveryScope KnownAlike [] h ↔ EveryScope Frank [] h) ∧
      (EveryScope Frank [] h → h.clone.issues = h.issues ∧ h.clone.toJson = h.toJson ∧
        EveryScope (fun enclosing scope => ∀ n ∈ scope.nodes, ∀ rankHint,
          resolvePermutation (enclosing.map clone) scope.clone n.copied rankHint =
            resolvePermutation enclosing scope n rankHint) [] h) ∧
      (h.IsValid → h.clone.IsValid ∧ h.clone.toJson = h.toJson) ∧
      (∀ pass ∈ [Pass.identity, Pass.deadNodes], ∀ number,
        (pass.run .root number h.clone).changes = (pass.run .root number h).changes ∧
        (pass.run .root number h.clone).failure = (pass.run .root number h).failure ∧
        (pass.run .root number h.clone).graph.bare = (pass.run .root number h).graph.bare) ∧
      (h.IsValid → KeyedTree h → ∀ pass ∈ Pass.registry,
        (pass.SettledAt h → pass.SettledAt h.clone) ∧
        ((pass = Pass.transpose → EveryScope Frank [] h) →
          pass.SettledAt h.clone → pass.SettledAt h)) ∧
      (h.clone = h ↔ EveryScope (fun _ => Labelled) [] h) := by
  have hlegible := hr.legible (legible_ofJson hread)
  refine ⟨((legible_ofJson hread).clone_eq_self_iff []).2 (labelled_ofJson hread []),
    .of_forall wiredAlike [] h, everyScope_knownAlike_iff, fun hfrank => ?_,
    fun hvalid => ⟨isValid_clone hvalid, toJson_clone hvalid⟩, fun pass hpass number => ?_,
    fun hvalid hkeyed pass hpass => ⟨.clone hpass hvalid hkeyed, fun hfrank =>
      .of_clone hpass hvalid hkeyed fun e => everyScope_knownAlike_iff.2 (hfrank e)⟩,
    hlegible.clone_eq_self_iff []⟩
  · have hknown := everyScope_knownAlike_iff.2 hfrank
    exact ⟨issuesIn_clone_of_knownAlike hknown, toJsonIn_clone_of_knownAlike hknown,
      hknown.imp fun _ _ here n _ => here.resolvePermutation n⟩
  · obtain ⟨hchanges, -, hfailure, hbare⟩ := Pass.run_of_bare hpass (bare_clone h) number
    exact ⟨hchanges, hfailure, hbare⟩

/-- A branch that hands on `x`, and transposes it there and back. -/
private def handed : Graph where
  outputs := ["o", "q"]
  nodes := [
    { name := "hand", op := "Identity", inputs := ["x"], outputs := ["o"] },
    { name := "there", op := "Transpose", inputs := ["x"], outputs := ["p"] },
    { name := "back", op := "Transpose", inputs := ["p"], outputs := ["q"]
      attributes := [("perm", .numbers [.int 1, .int 0])] }]

/-- A branch without identities and transpositions. -/
private def clipped : Graph where
  outputs := ["e", "f"]
  nodes := [
    { name := "clip", op := "Relu", inputs := ["x"], outputs := ["e"] },
    { name := "bend", op := "Relu", inputs := ["x"], outputs := ["f"] }]

/-- A graph with such branches that knows the shape of `x`. -/
def lending : Graph where
  inputs := ["x", "c"]
  outputs := ["r", "s"]
  infos := .ofList
    [{ name := "x", dtype := some .float32, shape := some [some (.ofNat 2), some (.ofNat 3)] }]
  nodes := [
    { name := "choice", op := "If", inputs := ["c"], outputs := ["r", "s"]
      attributes := [("then_branch", .body handed), ("else_branch", .body clipped)] }]

private theorem legible_lending : lending.Legible := by
  have hperm : ∀ x ∈ [Number.int 1, Number.int 0], x.isFinite = true := by decide
  have hhanded : handed.Legible := by
    have hattributes : Attributes.Legible [("perm", .numbers [.int 1, .int 0])] :=
      List.forall_mem_singleton.2 ⟨by decide, .numbers hperm⟩
    simp [handed, legible_iff, Node.legible_iff, hattributes]
  have hclipped : clipped.Legible := by simp [clipped, legible_iff, Node.legible_iff]
  refine legible_iff.2 ⟨InfoTable.Legible.ofList ?_, by
    simp [lending, Node.legible_iff, Attributes.Legible.branches hhanded hclipped]⟩
  have hsizes : ∀ d, some d ∈ [some (Number.ofNat 2), some (Number.ofNat 3)] → d.Size := by
    simp [Number.size_ofNat]
  exact List.forall_mem_singleton.2
    ⟨fun d hd => Option.some.inj hd ▸ by decide, fun dims hdims => Option.some.inj hdims ▸ hsizes⟩

/-- What a pass makes of the graph that is read where `lending` is written. -/
def lendingAfter (pass : Pass) : Graph := (pass.run .root 0 (lending.reread [])).graph

private theorem reached_lendingAfter {pass : Pass} (hpass : pass ∈ Pass.registry) :
    Pass.Reached (lending.reread []) (lendingAfter pass) :=
  .run hpass 0 .start

theorem clone_reached_lending :
    ofJson (some lending.toJson) = .ok (lending.reread []) ∧
      Pass.Reached (lending.reread []) (lendingAfter .transpose) ∧
      (Pass.transpose.run .root 0 (lending.reread [])).changes = .ofNat 1 ∧
      EveryScope WiredAlike [] (lendingAfter .transpose) ∧
      (lendingAfter .transpose).clone = lendingAfter .transpose := by
  have hread := ofJson_toJson legible_lending
  have hr : Pass.Reached (lending.reread []) (lendingAfter .transpose) :=
    reached_lendingAfter (by simp [Pass.registry])
  obtain ⟨-, hwired, -, -, -, -, -, hself⟩ := clone_reached hread hr
  exact ⟨hread, hr, by decide +kernel, hwired,
    hself.2 (.of_bodies (by decide +kernel) (by decide +kernel))⟩

/-- When its identity is gone `handed` yields `x`, of which it knows nothing itself. The copy has an entry
that says nothing of `x`, and its transpositions stay. -/
theorem not_clone_reached :
    ofJson (some lending.toJson) = .ok (lending.reread []) ∧ (lending.reread []).IsValid ∧
      Pass.Reached (lending.reread []) (lendingAfter .identity) ∧
      (∃ n ∈ (lendingAfter .identity).nodes, ∃ body ∈ n.bodies,
        (body.2.info? [lendingAfter .identity] "x").bind ValueInfo.shape =
          some [some (.ofNat 2), some (.ofNat 3)] ∧
        body.2.clone.info? [(lendingAfter .identity).clone] "x" = some { name := "x" }) ∧
      (Pass.transpose.run .root 1 (lendingAfter .identity)).changes = .ofNat 1 ∧
      (Pass.transpose.run .root 1 (lendingAfter .identity).clone).changes = .ofNat 0 := by
  have hvalid : (lending.reread []).IsValid := by
    unfold IsValid
    decide +kernel
  exact ⟨ofJson_toJson legible_lending, hvalid, reached_lendingAfter (by simp [Pass.registry]),
    by decide +kernel, by decide +kernel, by decide +kernel⟩

/-- A branch that hands on what stands still around it. -/
private def stillHanded : Graph where
  outputs := ["o"]
  nodes := [{ name := "hand", op := "Identity", inputs := ["size_gather"], outputs := ["o"] }]

/-- A branch that yields something else. -/
private def clippedOnly : Graph where
  outputs := ["e"]
  nodes := [{ name := "clip", op := "Relu", inputs := ["y"], outputs := ["e"] }]

/-- A graph that has a value of the name that a pass would give to a node that it adds. The value comes
from a permutation that moves nothing. -/
def reserving : Graph where
  inputs := ["x", "y", "c"]
  outputs := ["r", "s"]
  infos := .ofList [{ name := "size_gather" }]
  nodes := [
    { name := "still", op := "Transpose", inputs := ["y"], outputs := ["size_gather"]
      attributes := [("perm", .numbers [.int 0])] },
    { name := "choice", op := "If", inputs := ["c"], outputs := ["r"]
      attributes := [("then_branch", .body stillHanded), ("else_branch", .body clippedOnly)] },
    { name := "turn", op := "Transpose", inputs := ["x"], outputs := ["t"]
      attributes := [("perm", .numbers [.int 1, .int 0])] },
    { name := "size", op := "Shape", inputs := ["t"], outputs := ["s"] }]

/-- What is left of it when its identities are removed. -/
def reservingAfter : Graph := (Pass.identity.run .root 0 (reserving.reread [])).graph

/-- Its copy knows the same of all values, but the entry of the value that stood still outlives the value
in the branch of the copy, so that a node that the pass adds gets another name there. -/
theorem run_clone_reservingAfter :
    (reserving.reread []).IsValid ∧ Pass.Reached (reserving.reread []) reservingAfter ∧
      EveryScope Frank [] reservingAfter ∧
      (Pass.transpose.run .root 1 reservingAfter).changes = .ofNat 2 ∧
      (Pass.transpose.run .root 1 reservingAfter.clone).changes = .ofNat 2 ∧
      (Pass.transpose.run .root 1 reservingAfter.clone).graph.toJson ≠
        (Pass.transpose.run .root 1 reservingAfter).graph.toJson := by
  have hvalid : (reserving.reread []).IsValid := by
    unfold IsValid
    decide +kernel
  have hwritten : (Pass.transpose.run .root 1 reservingAfter.clone).graph.toJson.compact ≠
      (Pass.transpose.run .root 1 reservingAfter).graph.toJson.compact := by decide +kernel
  exact ⟨hvalid, .run (by simp [Pass.registry]) 0 .start,
    .of_bodies (by decide +kernel) (by decide +kernel), by decide +kernel, by decide +kernel,
    fun heq => hwritten (congrArg Json.compact heq)⟩

end Graph

end TensorGraph
