import TensorGraph.Proofs.Upholding
import TensorGraph.Proofs.Usage

/-!
# Operands never go missing

The passes that move transpositions and remove identities leave all other operators in use as they
are. That takes a graph in which nothing that stands for a value is absent: readers are rewired to the
only output of a node or to the only input of a transposition, which may both be absent in a valid
graph.

## Main results

* `Rewriting.Effect.keepsUse` -- what one edit leaves of the operators of a graph.
* `Pass.keepsOperators` -- two passes keep the operators of all graphs of a tree.
-/

namespace TensorGraph

open TensorGraph.Graph

/-! ## Graphs -/

/-- Whether a node yields other than a single absent value, and transposes no absent one. -/
@[mk_iff]
structure Node.Wired (n : Node) : Prop where
  outputs : n.outputs ≠ [""]
  inputs : n.op = "Transpose" → n.inputs ≠ [""]

namespace Graph

/-- Whether no node of a graph yields a single absent value, and none transposes one. -/
def Wired (g : Graph) : Prop := ∀ n ∈ g.nodes, n.Wired

/-- The operators that transpose a value, hand it on, take its sizes or provide one. -/
def auxiliaryOps : List String := ["Transpose", "Identity", "Shape", "Constant"]

/-- Whether the nodes of a graph with other operators than the auxiliary ones are there in another
graph too, in the same use. -/
def KeepsOperators (g h : Graph) : Prop :=
  ∀ n ∈ g.nodes, n.op ∉ auxiliaryOps → ∃ m ∈ h.nodes, n.SameUse m

/-- Whether operators are kept, and no value goes missing where there was none before. -/
structure KeepsUse (g h : Graph) : Prop where
  operators : g.KeepsOperators h
  wired : g.Wired → h.Wired

theorem KeepsUse.refl (g : Graph) : g.KeepsUse g := ⟨fun n hn _ => ⟨n, hn, .refl n⟩, id⟩

theorem KeepsUse.trans {g h k : Graph} (h₁ : g.KeepsUse h) (h₂ : h.KeepsUse k) : g.KeepsUse k where
  operators n hn hop := by
    obtain ⟨m, hm, hfirst⟩ := h₁.operators n hn hop
    obtain ⟨l, hl, hsecond⟩ := h₂.operators m hm (hfirst.op ▸ hop)
    exact ⟨l, hl, hfirst.trans hsecond⟩
  wired := h₂.wired ∘ h₁.wired

end Graph

theorem Node.Wired.of_op {n : Node} (houtputs : n.outputs ≠ [""]) (hop : n.op ≠ "Transpose") : n.Wired :=
  ⟨houtputs, fun h => absurd h hop⟩

theorem Node.Wired.of_sameUse {n m : Node} (hn : n.Wired) (hsame : n.SameUse m)
    (houtputs : m.outputs = [""] → n.outputs = [""]) : m.Wired where
  outputs h := hn.outputs (houtputs h)
  inputs hop h := hn.inputs (hsame.op ▸ hop) (hsame.inputs_eq_iff.1 h)

namespace Graph

variable {g h : Graph}

/-- A value that a wired graph handles is present. -/
theorem Wired.ne_empty (hg : g.Wired) {value : String} (hvalue : g.Handles value) : value ≠ "" := by
  rintro rfl
  obtain ⟨n, hn, ⟨-, hne⟩ | hout | hresult⟩ := hvalue
  · exact hne rfl
  · exact (hg n hn).outputs hout
  · exact Node.ne_empty_of_mem_results hresult rfl

theorem keepsUse_substituteOuter {new : String} (hnew : new ≠ "") (old : String) (g : Graph) :
    g.KeepsUse (g.substituteOuter old new) := by
  rw [substituteOuter_eq]
  split
  · exact .refl g
  · refine ⟨fun n hn _ => ⟨_, List.mem_map_of_mem hn, n.sameUse_replaceReads hnew old⟩,
      fun hg k hk => ?_⟩
    obtain ⟨n, hn, rfl⟩ := List.mem_map.1 hk
    exact (hg n hn).of_sameUse (n.sameUse_replaceReads hnew old) (by simp)

theorem keepsUse_putBody (hkeyed : ∀ n ∈ g.nodes, n.Keyed) {place : Nat} {key : String} {old : Graph}
    (hbody : g.HasBody place key old) (new : Graph) : g.KeepsUse (g.putBody place key new) := by
  obtain ⟨n, hn, hold⟩ := hbody
  have hmem := List.mem_of_getElem? hn
  have hsame := Node.sameUse_rebodied (hkeyed n hmem) hold new
  refine ⟨fun k hk _ => ?_, fun hg k hk => ?_⟩
  · rcases eq_or_elsewhere hn hk with rfl | hother
    · exact ⟨_, (mem_nodes_putBody hn).2 (.inl rfl), hsame⟩
    · exact ⟨k, (mem_nodes_putBody hn).2 (.inr hother), .refl k⟩
  · rcases (mem_nodes_putBody hn).1 hk with rfl | ⟨j, -, hj⟩
    · exact (hg n hmem).of_sameUse hsame id
    · exact hg k (List.mem_of_getElem? hj)

end Graph

/-! ## Bypassed nodes -/

namespace Graph

variable {g h : Graph} {place : Nat} {n : Node} {old new : String}

/-- Nodes stay in use when another one is bypassed by a present value. -/
theorem Bypassed.keepsUse (hb : Bypassed g place n old new h) (hn : n.op ∈ auxiliaryOps)
    (hnew : new ≠ "") : g.KeepsUse h := by
  refine ⟨fun k hk hop => ?_, fun hg k hk => ?_⟩
  · obtain ⟨i, hplace, hi⟩ := elsewhere_of_ne hb.node hk fun e => hop (e ▸ hn)
    exact ⟨_, hb.mem_nodes.2 ⟨i, hplace, k, hi, rfl⟩, k.sameUse_replaceReads hnew old⟩
  · obtain ⟨j, -, m, hm, rfl⟩ := hb.mem_nodes.1 hk
    exact (hg m (List.mem_of_getElem? hm)).of_sameUse (m.sameUse_replaceReads hnew old) (by simp)

/-- Nodes stay in use when a value takes over a present name. -/
theorem Promoted.keepsUse (hp : Promoted g place n old new h) (hn : n.op ∈ auxiliaryOps)
    (hold : old ≠ "") : g.KeepsUse h := by
  have hnew : new ≠ "" := ne_empty_of_mem_results hp.produced
  obtain ⟨before, hbefore, hnodes⟩ := hp.nodes
  have hsame (m : Node) : m.SameUse (((before m).renamed new old).replaceReads new old) := by
    have hfirst : m.SameUse (before m) := by
      rcases hbefore with rfl | rfl
      · exact .refl m
      · exact m.sameUse_replaceReads hnew old
    exact (hfirst.trans ((before m).sameUse_renamed new old)).trans
      (Node.sameUse_replaceReads hold new _)
  refine ⟨fun k hk hop => ?_, fun hg k hk => ?_⟩
  · obtain ⟨i, hplace, hi⟩ := elsewhere_of_ne hp.node hk fun e => hop (e ▸ hn)
    refine ⟨_, ?_, hsame k⟩
    rw [hnodes, mem_map_eraseIdx_iff]
    exact ⟨i, hplace, k, hi, rfl⟩
  · rw [hnodes, mem_map_eraseIdx_iff] at hk
    obtain ⟨j, -, m, hm, rfl⟩ := hk
    refine (hg m (List.mem_of_getElem? hm)).of_sameUse (hsame m) fun hblank => ?_
    have houtputs : (before m).outputs = m.outputs := by
      rcases hbefore with rfl | rfl <;> simp
    rw [Node.outputs_replaceReads, Node.outputs_renamed hnew, houtputs] at hblank
    obtain ⟨value, hvalue, hempty⟩ := List.map_eq_singleton_iff.1 hblank
    have hbeq := Node.beq_substituteName hnew hold value
    rw [hempty] at hbeq
    rw [hvalue, beq_iff_eq.1 hbeq.symm]

end Graph

/-! ## Edits -/

namespace Transposes

variable {s : Surroundings} {g h : Graph} {t : PlacedTranspose}

theorem PlacedTranspose.Stands.output_ne (ht : t.Stands s g) (hg : g.Wired) : t.output ≠ "" :=
  fun e => (hg t.node ht.mem).outputs (by rw [ht.outputs, e])

theorem takesSizes_mem_auxiliaryOps {n : Node} (htakes : takesSizes t n = true) :
    n.op ∈ auxiliaryOps := by
  rw [Capability.eq_shape_of_ofOp (takesSizes_op htakes).1]
  decide

/-- Nodes stay in use when sizes are gathered in another order. -/
theorem Gathered.keepsUse {place : Nat} {n : Node} {sizes indices gather : String}
    (hs : Gathered s g t place n sizes indices gather h) (hn : g.nodes[place]? = some n)
    (htakes : takesSizes t n = true) : g.KeepsUse h := by
  refine ⟨fun k hk hop => ?_, fun hg k hk => ?_⟩
  · have hother := elsewhere_of_ne hn hk fun e => hop (e ▸ takesSizes_mem_auxiliaryOps htakes)
    exact ⟨k, (hs.mem_nodes hn).2 (.inl hother), .refl k⟩
  · rcases (hs.mem_nodes hn).1 hk with ⟨j, -, hj⟩ | rfl | rfl | rfl
    · exact hg k (List.mem_of_getElem? hj)
    · refine .of_op (fun e => hs.named.1 (List.singleton_inj.1 e)) ?_
      change n.op ≠ "Transpose"
      rw [Capability.eq_shape_of_ofOp (takesSizes_op htakes).1]
      decide
    · exact .of_op (fun e => hs.named.2 (List.singleton_inj.1 e))
        (show "Constant" ≠ "Transpose" by decide)
    · refine .of_op (fun e => (hg n (List.mem_of_getElem? hn)).outputs ?_)
        (show "Gather" ≠ "Transpose" by decide)
      exact (Rewriting.takesSizes_ne htakes).2.2.trans e

end Transposes

namespace Relocation

open Transposes

variable {s : Surroundings} {g h : Graph}

/-- Rearranged constants have present names. -/
theorem Placing.ne_empty {operands : List Operand} {placed later : List (String × String)}
    (hp : Placing s operands g placed h later)
    (hoperands : ∀ name place n permuted, .constant name place n permuted ∈ operands → name ≠ "")
    (hplaced : ∀ entry ∈ placed, entry.2 ≠ "") : ∀ entry ∈ later, entry.2 ≠ "" := by
  induction hp with
  | done => exact hplaced
  | value _ ih =>
      exact ih (fun name place n permuted hmem => hoperands name place n permuted (.tail _ hmem)) hplaced
  | again _ _ ih =>
      exact ih (fun name place n permuted hmem => hoperands name place n permuted (.tail _ hmem)) hplaced
  | put _ _ step _ ih =>
      refine ih (fun name place n permuted hmem => hoperands name place n permuted (.tail _ hmem)) ?_
      intro entry hentry
      rcases List.mem_append.1 hentry with hentry | hentry
      · exact hplaced entry hentry
      · obtain rfl := List.mem_singleton.1 hentry
        cases step with
        | copied _ named => exact named
        | changed => exact hoperands _ _ _ _ (.head _)

/-- An operand that is planned is present before and after. -/
theorem Planned.ne_empty {t : PlacedTranspose} {policy : ConstantPolicy} {input : String}
    {operand : Operand} {placed : List (String × String)} (hg : g.Wired) (ht : t.Stands s g)
    (hplaced : ∀ entry ∈ placed, entry.2 ≠ "")
    (hp : Planned s g t.source t.output t.perm policy input operand) :
    input ≠ "" ∧ operand.inputName placed ≠ "" := by
  cases hp with
  | moved => exact ⟨ht.output_ne hg, ht.present⟩
  | @sibling _ inner n other present producer resolved rank inputs =>
      refine ⟨present, fun e => ?_⟩
      obtain rfl : inner = "" := e
      exact (hg n (List.mem_of_find?_eq_some producer)).inputs (resolvePermutation_ok resolved).1 inputs
  | constant other present =>
      refine ⟨present, ?_⟩
      change (placed.lookup input).getD input ≠ ""
      cases hlookup : placed.lookup input with
      | none => exact present
      | some target =>
          obtain ⟨before, after, hsplit, -⟩ := List.lookup_eq_some_iff.1 hlookup
          exact hplaced (input, target) (by simp [hsplit])

/-- An operator that has changed places with a transposition is in the same use. -/
theorem sameUse_frontNode {t : PlacedTranspose} {place : Nat} {consumer : Node}
    {policy : ConstantPolicy} {attributes : List (String × Attribute)} {p : Plan} {arranged : Graph}
    {placed : List (String × String)} (hr : Relocatable s g t place consumer policy attributes p)
    (hplacing : Placing s p.operands g [] arranged placed) (hg : g.Wired) (hkeyed : consumer.Keyed) :
    consumer.SameUse (frontNode consumer attributes (p.operands.map (Operand.inputName placed))
      t.output) := by
  have hplaced : ∀ entry ∈ placed, entry.2 ≠ "" := by
    refine hplacing.ne_empty (fun name place n permuted hmem => ?_) (by simp)
    have hn := hr.isConstant hmem
    exact fun e => (hg n hn.mem).outputs (by rw [hn.outputs, e])
  refine ⟨rfl, rfl, ?_, ?_, keepsEntry_of_passage? hkeyed hr.passage⟩
  · change (p.operands.map (Operand.inputName placed)).map (· == "") = _
    have hsame : List.Forall₂ (fun input operand =>
        (Operand.inputName placed operand == "") = (input == "")) consumer.inputs p.operands :=
      hr.operands.imp fun input operand hp => by
        obtain ⟨hbefore, hafter⟩ := hp.ne_empty hg hr.stands hplaced
        rw [beq_false_of_ne hbefore, beq_false_of_ne hafter]
    rw [List.map_map, ← List.forall₂_eq_eq_eq, List.forall₂_map_left_iff, List.forall₂_map_right_iff]
    exact hsame.flip
  · rw [hr.outputs]
    rfl

/-- Nodes stay in use when a transposition moves behind an operator. -/
theorem Moved.keepsUse {t : PlacedTranspose} {place : Nat} {consumer : Node}
    {policy : ConstantPolicy} {attributes : List (String × Attribute)} {p : Plan}
    {arranged detached cleaned moved : Graph} {placed : List (String × String)} {rebuiltPlace : Nat}
    (hm : Moved s g t.place t.node place consumer t.perm attributes p arranged detached cleaned placed
      rebuiltPlace moved)
    (hr : Relocatable s g t place consumer policy attributes p) (hg : TidyIn s g) (hw : g.Wired)
    (infos : InfoTable) : g.KeepsUse { moved with infos } := by
  have hrelocated := hm.relocated hr hg.tree hg.covers
  refine ⟨fun k hk hop => ?_, fun _ m hmem => ?_⟩
  · by_cases heq : k = consumer
    · rw [heq]
      exact ⟨_, hrelocated.front, sameUse_frontNode hr hm.arrange hw (hg.tree.here.keyed _ hr.mem)⟩
    · refine ⟨k, hm.stays hr hg.tree hg.covers hk (fun e => hop ?_) (fun e => hop ?_) heq, .refl k⟩ <;>
        rw [e] <;> decide
  · rcases hrelocated.origin m hmem with ⟨n, hn, -, -, hlike⟩ |
      ⟨target, literal, hlike, hpresent, -⟩ | rfl | rfl
    · exact ⟨hlike.outputs ▸ (hw n hn).outputs,
        fun h => hlike.inputs ▸ (hw n hn).inputs (hlike.op ▸ h)⟩
    · refine .of_op (fun e => hpresent ?_) (fun e => ?_)
      · exact List.singleton_inj.1 (hlike.outputs.symm.trans e)
      · exact absurd (hlike.op.symm.trans e) (show "Constant" ≠ "Transpose" by decide)
    · exact .of_op (fun e => hr.present (List.singleton_inj.1 e)) hr.op.1
    · exact ⟨fun e => (hw consumer hr.mem).outputs (hr.outputs.trans e),
        fun _ e => hr.present (List.singleton_inj.1 e)⟩

end Relocation

namespace Rewriting

open Transposes

variable {s : Surroundings} {g h : Graph} {kind : Kind} {n k : Node}

theorem Exchange.mem_auxiliaryOps (he : Exchange s g n kind k) : n.op ∈ auxiliaryOps := by
  cases he with
  | shim _ _ reason =>
      rcases reason.op with ⟨hop, -⟩ | ⟨hop, -⟩ <;> rw [hop] <;> decide
  | rebase _ _ _ resolved =>
      rw [(resolvePermutation_ok resolved).1]
      decide
  | sizes _ takes => exact takesSizes_mem_auxiliaryOps takes

theorem Exchange.wired (he : Exchange s g n kind k) (hn : n.Wired) : k.Wired := by
  cases he with
  | shim outputs =>
      exact .of_op (fun e => hn.outputs (outputs.trans e)) (show "Identity" ≠ "Transpose" by decide)
  | rebase stands => exact ⟨hn.outputs, fun _ e => stands.present (List.singleton_inj.1 e)⟩
  | sizes _ takes =>
      exact .of_op (fun e => hn.outputs ((takesSizes_ne takes).2.2.trans e))
        (show "Constant" ≠ "Transpose" by decide)

theorem StandsFor.mem_auxiliaryOps {new : String} (hr : StandsFor s g n new kind) :
    n.op ∈ auxiliaryOps := by
  rcases hr.op with ⟨hop, -⟩ | ⟨hop, -⟩ <;> rw [hop] <;> decide

/-- What an edit leaves of the operators of a graph, unless it takes away what nothing needs. -/
theorem Effect.keepsUse (he : Effect s g kind h) (hg : TidyIn s g) (hw : g.Wired)
    (hkind : kind ≠ .cleanup) : g.KeepsUse h := by
  cases he with
  | bypassed reason result =>
      exact result.keepsUse reason.mem_auxiliaryOps
        (hw.ne_empty (reason.handles (List.mem_of_getElem? result.node)))
  | promoted reason result =>
      exact result.keepsUse reason.mem_auxiliaryOps (hw.ne_empty result.handles_old)
  | @replaced _ place n k _ reason result =>
      refine ⟨fun m hm hop => ?_, fun _ m hm => ?_⟩
      · have hother := elsewhere_of_ne result.node hm fun e => hop (e ▸ reason.mem_auxiliaryOps)
        exact ⟨m, result.mem_nodes.2 (.inr hother), .refl m⟩
      · rcases result.mem_nodes.1 hm with rfl | ⟨j, -, hj⟩
        · exact reason.wired (hw n (List.mem_of_getElem? result.node))
        · exact hw m (List.mem_of_getElem? hj)
  | gathered stands node takes present result => exact result.keepsUse node takes
  | relocated inside readers conditions result infos =>
      rw [infos]
      exact result.keepsUse conditions hg hw _
  | removed => exact absurd rfl hkind

/-- The removal of a transposition leaves the other operators in use. -/
theorem keepsUse_removed {n : Node} (hg : TidyIn s g) (hkept : g.KeepsUse h) (hn : n ∈ g.nodes)
    (hop : n.op = "Transpose") : g.KeepsUse (h.removeNamedIfUnreferenced n.name) := by
  have hsub := h.nodes_removeNamedIfUnreferenced_subset n.name
  refine ⟨fun k hk hauxiliary => ?_, fun hwired m hm => hkept.wired hwired m (hsub hm)⟩
  obtain ⟨m, hm, hsame⟩ := hkept.operators k hk hauxiliary
  refine ⟨m, mem_removeNamedIfUnreferenced hm fun hname => hauxiliary ?_, hsame⟩
  -- the node that goes transposes, and no other node has its name
  rw [hg.tree.here.eq_of_name_eq hk hn (hsame.name.symm.trans hname), hop]
  decide

/-- The use of operators is kept where nowhere a single absent value is yielded or transposed. -/
theorem upheld_keepsUse : Upheld (fun s g => TidyIn s g ∧ Throughout Wired g) KeepsUse where
  refl := .refl
  trans := .trans
  tidyIn hg := hg.1
  inside hg hbody := ⟨hg.1.inside hbody, hg.2.inside hbody⟩
  onward hg htidy hkept := ⟨htidy, hkept.throughout (fun h => h.wired) hg.2⟩
  substituteOuter hg hnew old k := keepsUse_substituteOuter (hg.2.here.ne_empty hnew) old k
  putBody hg hbody new := keepsUse_putBody hg.1.tree.here.keyed hbody new
  edit hg he hkind := (he.effect hg.1.tree.here).keepsUse hg.1 hg.2.here hkind
  removed hg _ hkept hn hop := keepsUse_removed hg.1 hkept hn hop
  sorted _ hperm :=
    ⟨fun n hn _ => ⟨n, hperm.mem_iff.2 hn, .refl n⟩, fun hw n hn => hw n (hperm.mem_iff.1 hn)⟩

end Rewriting

/-! ## Passes -/

namespace Pass

variable {g : Graph}

/-- Where nowhere in a tree a single absent value is yielded or transposed, moving transpositions and
removing identities leaves every other operator in its graph, in the same use. -/
theorem keepsOperators {pass : Pass} (hpass : pass = transpose ∨ pass = identity) (hvalid : g.IsValid)
    (hkeyed : KeyedTree g) (hwired : Throughout Wired g) (number : Nat)
    (hnone : (pass.run .root number g).failure = none) :
    Lineal KeepsOperators g (pass.run .root number g).graph :=
  (Rewriting.upheld_keepsUse.pass hpass ⟨hvalid.tidyIn hkeyed, hwired⟩ number hnone).2.mono
    KeepsUse.operators

/-- Two transposed values that are joined along their first axis. -/
def joining : Graph where
  inputs := ["x", "y"]
  outputs := ["z"]
  nodes := [
    { name := "turn", op := "Transpose", inputs := ["x"], outputs := ["xt"]
      attributes := [("perm", .numbers [.int 1, .int 0])] },
    { name := "return", op := "Transpose", inputs := ["y"], outputs := ["yt"]
      attributes := [("perm", .numbers [.int 1, .int 0])] },
    { name := "join", op := "Concat", inputs := ["xt", "yt"], outputs := ["joined"]
      attributes := [("axis", .number (.int 0))] },
    { name := "clip", op := "Clip", inputs := ["joined", "", "y"], outputs := ["z"] }]

private theorem throughout_joining : Throughout Wired joining :=
  .intro (by simp [joining, Wired, Node.wired_iff]) (by simp [joining, Node.bodies, Attribute.body?])

theorem keepsOperators_joining :
    joining.IsValid ∧ KeyedTree joining ∧ Throughout Wired joining ∧
      (transpose.run .root 0 joining).failure = none ∧
      ((transpose.run .root 0 joining).graph.nodes.map fun n => (n.name, n.inputs, n.number? "axis")) =
        [("join", ["x", "y"], some (.int 1)), ("turn", ["xt"], none),
          ("clip", ["joined", "", "y"], none)] ∧
      Lineal KeepsOperators joining (transpose.run .root 0 joining).graph := by
  have hvalid : joining.IsValid := by
    unfold IsValid
    decide +kernel
  have hkeyed : KeyedTree joining :=
    .intro (by simp [joining, Node.Keyed]) (by simp [joining, Node.bodies, Attribute.body?])
  have hnone : (transpose.run .root 0 joining).failure = none := by decide +kernel
  exact ⟨hvalid, hkeyed, throughout_joining, hnone, by decide +kernel,
    keepsOperators (.inl rfl) hvalid hkeyed throughout_joining 0 hnone⟩

/-- Two equal transpositions, the first of which yields an absent value only. -/
def losing : Graph where
  inputs := ["x"]
  outputs := ["z"]
  nodes := [
    { name := "lost", op := "Transpose", inputs := ["x"], outputs := [""]
      attributes := [("perm", .numbers [.int 1, .int 0])] },
    { name := "turn", op := "Transpose", inputs := ["x"], outputs := ["y"]
      attributes := [("perm", .numbers [.int 1, .int 0])] },
    { name := "scan", op := "CumSum", inputs := ["y"], outputs := ["z"] }]

/-- The reader of the second one is left without an operand. -/
theorem not_keepsOperators :
    losing.IsValid ∧ KeyedTree losing ∧ (transpose.run .root 0 losing).failure = none ∧
      ¬ Lineal KeepsOperators losing (transpose.run .root 0 losing).graph := by
  have hvalid : losing.IsValid := by
    unfold IsValid
    decide +kernel
  have hkeyed : KeyedTree losing :=
    .intro (by simp [losing, Node.Keyed]) (by simp [losing, Node.bodies, Attribute.body?])
  refine ⟨hvalid, hkeyed, by decide +kernel, fun hkept => ?_⟩
  have hblank : ∀ m ∈ (transpose.run .root 0 losing).graph.nodes, m.name = "scan" →
      m.inputs = [""] := by
    decide +kernel
  obtain ⟨m, hm, hsame⟩ := hkept.here
    { name := "scan", op := "CumSum", inputs := ["y"], outputs := ["z"] } (by simp [losing]) (by decide)
  have hinputs := hsame.inputs_eq_iff.1 (hblank m hm hsame.name)
  exact absurd hinputs (by decide)

end Pass

end TensorGraph
