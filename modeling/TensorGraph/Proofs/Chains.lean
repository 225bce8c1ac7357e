import TensorGraph.Proofs.Permutations
import TensorGraph.Proofs.Relocating
import TensorGraph.Proofs.Wellformed

/-!
# Chains

A chain leads from a value to another one, one node after the other. Each of its links is a
transposition with a permutation of its own, an operator on single elements, or an operator that
combines the value with a constant which nothing else reads. The permutations on the way compose to
one, and that is what a chain does to the axes.

A graph is a chain when its nodes are those of the links, in whatever order they are listed.

## Main results

* `Chain.append_iff` -- a chain may be cut between any two of its links.
* `Graph.Chained.reads_source`, `Graph.Chained.reads_target` -- every value of a chain has one reader.
* `Graph.Chained.exists_cut` -- where a transposition stands in a chain.
-/

namespace TensorGraph

/-! ## Links -/

/-- A step of a chain: the node that takes the value on, and the constant that it alone reads, if
there is one. -/
structure Link where
  node : Node
  constants : List Node := []

namespace Link

/-- The nodes of a link. -/
def nodes (l : Link) : List Node := l.node :: l.constants

/-- What a link of a chain makes of the value `source`: the value `target`, with axes that have been
turned by some permutations, none or one. -/
inductive Leads (rank : Nat) : String → Link → String → List (List Nat) → Prop
  | transposing {source target : String} {n : Node} {xs : List Number} {p : List Nat}
      (named : source ≠ "" ∧ target ≠ "") (op : n.op = "Transpose") (inputs : n.inputs = [source])
      (outputs : n.outputs = [target]) (spelled : n.numbers? "perm" = some xs)
      (perm : Permutation.ofNumbers? xs = some p) (length : p.length = rank) :
      Leads rank source ⟨n, []⟩ target [p]
  | elementwise {source target : String} {n : Node} (named : source ≠ "" ∧ target ≠ "")
      (capability : Capability.ofOp n.op = .unary) (inputs : n.inputs = [source])
      (outputs : n.outputs = [target]) : Leads rank source ⟨n, []⟩ target []
  | combining {source target operand : String} {n constant : Node} {value : Literal}
      (named : source ≠ "" ∧ target ≠ "") (capability : Capability.ofOp n.op = .broadcast)
      (inputs : n.inputs = [source, operand] ∨ n.inputs = [operand, source])
      (outputs : n.outputs = [target]) (literal : constant.constant? = some value)
      (yields : constant.outputs = [operand]) (present : operand ≠ "")
      (turnable : value.Turnable rank) : Leads rank source ⟨n, [constant]⟩ target []

end Link

/-- The values that the nodes of links yield. -/
def linkResults (links : List Link) : List String :=
  (links.flatMap Link.nodes).flatMap Node.results

namespace Link

@[simp] theorem results_nil : linkResults [] = [] := rfl

theorem results_cons (l : Link) (links : List Link) :
    linkResults (l :: links) = l.nodes.flatMap Node.results ++ linkResults links := by
  simp [linkResults]

theorem results_append (before after : List Link) :
    linkResults (before ++ after) = linkResults before ++ linkResults after := by
  simp [linkResults]

variable {rank : Nat} {source target : String} {l : Link} {perms : List (List Nat)}

namespace Leads

theorem named (h : Leads rank source l target perms) : source ≠ "" ∧ target ≠ "" := by
  cases h <;> assumption

theorem outputs (h : Leads rank source l target perms) : l.node.outputs = [target] := by
  cases h <;> assumption

theorem ofRank (h : Leads rank source l target perms) : Permutation.OfRank rank perms := by
  cases h with
  | transposing _ _ _ _ _ perm length =>
      rintro p hp
      obtain rfl := List.mem_singleton.1 hp
      exact ⟨Permutation.ofNumbers?_isPermutation perm, length⟩
  | elementwise => simp [Permutation.OfRank]
  | combining => simp [Permutation.OfRank]

theorem source_mem_inputs (h : Leads rank source l target perms) : source ∈ l.node.inputs := by
  cases h with
  | transposing _ _ inputs => simp [inputs]
  | elementwise _ _ inputs => simp [inputs]
  | combining _ _ inputs => rcases inputs with inputs | inputs <;> simp [inputs]

theorem source_mem_reads (h : Leads rank source l target perms) : source ∈ l.node.reads :=
  Node.mem_reads.2 (.inl ⟨h.source_mem_inputs, h.named.1⟩)

theorem target_mem (h : Leads rank source l target perms) :
    target ∈ l.nodes.flatMap Node.results :=
  List.mem_flatMap.2 ⟨l.node, List.mem_cons_self,
    Node.mem_results.2 ⟨by simp [h.outputs], h.named.2⟩⟩

/-- What the nodes of a link take in: the value that comes from before, or that of a constant of
their own. -/
theorem inputs (h : Leads rank source l target perms) {n : Node} (hn : n ∈ l.nodes) {value : String}
    (hvalue : value ∈ n.inputs) :
    n = l.node ∧ (value = source ∨ ∃ c ∈ l.constants, value ∈ c.results) := by
  cases h with
  | transposing _ _ inputs =>
      obtain rfl := List.mem_singleton.1 hn
      rw [inputs] at hvalue
      exact ⟨rfl, .inl (List.mem_singleton.1 hvalue)⟩
  | elementwise _ _ inputs =>
      obtain rfl := List.mem_singleton.1 hn
      rw [inputs] at hvalue
      exact ⟨rfl, .inl (List.mem_singleton.1 hvalue)⟩
  | @combining _ operand _ constant _ _ _ inputs _ literal yields present =>
      rcases List.mem_cons.1 hn with rfl | hn
      · have hpair : value = source ∨ value = operand := by
          rcases inputs with hin | hin <;> rw [hin] at hvalue <;> simpa [or_comm] using hvalue
        exact ⟨rfl, hpair.imp_right fun e =>
          ⟨constant, List.mem_singleton_self _, Node.mem_results.2 (by simp [yields, e, present])⟩⟩
      · obtain rfl := List.mem_singleton.1 hn
        rw [(Relocation.constant?_eq_some literal).2.1] at hvalue
        cases hvalue

/-- What a link yields beside the value that it is for comes from its constants. -/
theorem mem_results (h : Leads rank source l target perms) {value : String} :
    value ∈ l.nodes.flatMap Node.results ↔ value = target ∨ ∃ c ∈ l.constants, value ∈ c.results := by
  have hnode : l.node.results = [target] := by
    simp [Node.results, h.outputs, h.named.2]
  simp [nodes, hnode]

/-- The constants of a link do not yield what the link is for. -/
theorem not_mem_constant (h : Leads rank source l target perms)
    (hnodup : (l.nodes.flatMap Node.results).Nodup) {c : Node} (hc : c ∈ l.constants) :
    target ∉ c.results := by
  have hnode : l.node.results = [target] := by
    simp [Node.results, h.outputs, h.named.2]
  rw [nodes, List.flatMap_cons, hnode] at hnodup
  exact fun hmem => (List.nodup_cons.1 hnodup).1 (List.mem_flatMap.2 ⟨c, hc, hmem⟩)

/-- A link with a permutation is a transposition, which says its permutation. -/
theorem transposes {n : Node} {p : List Nat} (h : Leads rank source ⟨n, []⟩ target [p]) :
    n.op = "Transpose" ∧ n.inputs = [source] ∧
      ∃ xs, n.numbers? "perm" = some xs ∧ Permutation.ofNumbers? xs = some p := by
  cases h with
  | transposing _ op inputs _ spelled perm => exact ⟨op, inputs, _, spelled, perm⟩

theorem resolvePermutation_eq {n : Node} {p : List Nat} (h : Leads rank source ⟨n, []⟩ target [p])
    (enclosing : List Graph) (g : Graph) (hint : Option Nat) :
    resolvePermutation enclosing g n hint = some p := by
  obtain ⟨op, inputs, xs, spelled, perm⟩ := h.transposes
  have houtputs : n.outputs = [target] := h.outputs
  simp [resolvePermutation, op, inputs, houtputs, spelled, perm]

/-- A transposition is a link by itself. -/
theorem of_transpose (h : Leads rank source l target perms) {n : Node} (hn : n ∈ l.nodes)
    (hop : n.op = "Transpose") : ∃ xs p, l = ⟨n, []⟩ ∧ perms = [p] ∧ n.inputs = [source] ∧
      n.numbers? "perm" = some xs ∧ Permutation.ofNumbers? xs = some p ∧ p.length = rank := by
  have hbarrier : Capability.ofOp n.op = .barrier := by
    rw [hop]
    decide
  cases h with
  | transposing _ _ inputs _ spelled perm length =>
      obtain rfl := List.mem_singleton.1 hn
      exact ⟨_, _, rfl, rfl, inputs, spelled, perm, length⟩
  | elementwise _ capability =>
      obtain rfl := List.mem_singleton.1 hn
      rw [hbarrier] at capability
      cases capability
  | combining _ capability _ _ literal =>
      rcases List.mem_cons.1 hn with rfl | hn
      · rw [hbarrier] at capability
        cases capability
      · obtain rfl := List.mem_singleton.1 hn
        exact absurd ((Relocation.constant?_eq_some literal).1.symm.trans hop) (by decide)

/-- What nodes the links of a chain have. -/
theorem kind (h : Leads rank source l target perms) {n : Node} (hn : n ∈ l.nodes) :
    n.op = "Transpose" ∨ n.op = "Constant" ∨
      Capability.ofOp n.op = .unary ∨ Capability.ofOp n.op = .broadcast := by
  cases h with
  | transposing _ op =>
      obtain rfl := List.mem_singleton.1 hn
      exact .inl op
  | elementwise _ capability =>
      obtain rfl := List.mem_singleton.1 hn
      exact .inr (.inr (.inl capability))
  | combining _ capability _ _ literal =>
      rcases List.mem_cons.1 hn with rfl | hn
      · exact .inr (.inr (.inr capability))
      · obtain rfl := List.mem_singleton.1 hn
        exact .inr (.inl (Relocation.constant?_eq_some literal).1)

theorem op_ne_constant (h : Leads rank source l target perms) : l.node.op ≠ "Constant" := by
  intro hop
  have hbarrier : Capability.ofOp l.node.op = .barrier := by
    rw [hop]
    decide
  cases h with
  | transposing _ op => exact absurd (op.symm.trans hop) (by decide)
  | elementwise _ capability => cases capability.symm.trans hbarrier
  | combining _ capability => cases capability.symm.trans hbarrier

theorem op_of_mem_constants (h : Leads rank source l target perms) {c : Node}
    (hc : c ∈ l.constants) : c.op = "Constant" := by
  cases h with
  | transposing => cases hc
  | elementwise => cases hc
  | combining _ _ _ _ literal =>
      obtain rfl := List.mem_singleton.1 hc
      exact (Relocation.constant?_eq_some literal).1

end Leads

end Link

/-! ## Chains of links -/

/-- Links one after the other, from a value to a value, with the permutations on the way. -/
inductive Chain (rank : Nat) : String → List Link → String → List (List Nat) → Prop
  | nil {value : String} : Chain rank value [] value []
  | cons {source between target : String} {l : Link} {links : List Link}
      {first rest : List (List Nat)} (link : Link.Leads rank source l between first)
      (chain : Chain rank between links target rest) :
      Chain rank source (l :: links) target (first ++ rest)

namespace Chain

variable {rank : Nat} {source target : String} {links before after : List Link}
  {perms : List (List Nat)}

theorem ofRank (h : Chain rank source links target perms) : Permutation.OfRank rank perms := by
  induction h with
  | nil => simp [Permutation.OfRank]
  | cons link _ ih => exact Permutation.OfRank.append_iff.2 ⟨link.ofRank, ih⟩

/-- A chain may be cut between any two of its links. -/
theorem append_iff : Chain rank source (before ++ after) target perms ↔
    ∃ between ps qs, Chain rank source before between ps ∧ Chain rank between after target qs ∧
      perms = ps ++ qs := by
  constructor
  · intro h
    induction before generalizing source perms with
    | nil => exact ⟨source, [], perms, .nil, h, rfl⟩
    | cons l before ih =>
        cases h with
        | cons link chain =>
            obtain ⟨between, ps, qs, hfirst, hrest, rfl⟩ := ih chain
            exact ⟨between, _, qs, .cons link hfirst, hrest, (List.append_assoc _ _ _).symm⟩
  · rintro ⟨between, ps, qs, hfirst, hrest, rfl⟩
    induction hfirst with
    | nil => exact hrest
    | cons link _ ih =>
        rw [List.append_assoc, List.cons_append]
        exact .cons link (ih hrest)

theorem cons_iff {l : Link} : Chain rank source (l :: links) target perms ↔
    ∃ between ps qs, l.Leads rank source between ps ∧ Chain rank between links target qs ∧
      perms = ps ++ qs := by
  constructor
  · intro h
    cases h with
    | cons link chain => exact ⟨_, _, _, link, chain, rfl⟩
  · rintro ⟨between, ps, qs, link, chain, rfl⟩
    exact .cons link chain

theorem single {l : Link} (link : l.Leads rank source target perms) :
    Chain rank source [l] target perms := by
  simpa using Chain.cons link .nil

/-- The value at the end of a chain is the one at its start, or one of its links yields it. -/
theorem target_mem (h : Chain rank source links target perms) :
    target = source ∨ target ∈ linkResults links := by
  induction h with
  | nil => exact .inl rfl
  | cons link _ ih =>
      rw [Link.results_cons, List.mem_append]
      refine .inr (ih.imp_left ?_)
      rintro rfl
      exact link.target_mem

/-- And if one of its links does, then as what it is for. -/
theorem target_mem_outputs (h : Chain rank source links target perms) :
    target = source ∨ ∃ l ∈ links, target ∈ l.node.outputs := by
  induction h with
  | nil => exact .inl rfl
  | @cons _ _ _ l _ _ _ link _ ih =>
      refine .inr ?_
      rcases ih with rfl | ⟨k, hk, hmem⟩
      · exact ⟨l, List.mem_cons_self, by simp [link.outputs]⟩
      · exact ⟨k, List.mem_cons_of_mem _ hk, hmem⟩

theorem target_mem_cons {l : Link} (h : Chain rank source (l :: links) target perms) :
    target ∈ linkResults (l :: links) := by
  obtain ⟨between, ps, qs, link, chain, -⟩ := cons_iff.1 h
  rw [Link.results_cons, List.mem_append]
  refine chain.target_mem.imp_left ?_
  rintro rfl
  exact link.target_mem

/-- What the nodes of a chain take in is the value at its start, or one of its links yields it. -/
theorem taken (h : Chain rank source links target perms) {n : Node}
    (hn : n ∈ links.flatMap Link.nodes) {value : String} (hvalue : value ∈ n.inputs) :
    value = source ∨ value ∈ linkResults links := by
  induction h with
  | nil => cases hn
  | cons link _ ih =>
      rw [Link.results_cons, List.mem_append]
      rcases List.mem_append.1 hn with hn | hn
      · exact (link.inputs hn hvalue).2.imp_right fun hconstant => .inl (link.mem_results.2 (.inr hconstant))
      · refine .inr ((ih hn).imp_left ?_)
        rintro rfl
        exact link.target_mem

/-- Only the first node of a chain reads the value at its start. -/
theorem eq_node_of_source {l : Link} (h : Chain rank source (l :: links) target perms)
    (hnodup : (source :: linkResults (l :: links)).Nodup) {n : Node}
    (hn : n ∈ (l :: links).flatMap Link.nodes) (hread : source ∈ n.inputs) : n = l.node := by
  obtain ⟨between, ps, qs, link, chain, -⟩ := cons_iff.1 h
  rcases List.mem_append.1 hn with hn | hn
  · exact (link.inputs hn hread).1
  · rw [Link.results_cons] at hnodup
    have hnot := (List.nodup_cons.1 hnodup).1
    rw [List.mem_append, not_or] at hnot
    rcases chain.taken hn hread with rfl | hmem
    · exact absurd link.target_mem hnot.1
    · exact absurd hmem hnot.2

/-- No node of a chain reads the value at its end. -/
theorem not_mem_inputs (h : Chain rank source links target perms)
    (hnodup : (source :: linkResults links).Nodup) {n : Node}
    (hn : n ∈ links.flatMap Link.nodes) : target ∉ n.inputs := by
  induction h with
  | nil => cases hn
  | @cons source between target l links _ _ link chain ih =>
      rw [Link.results_cons] at hnodup
      obtain ⟨hsource, hresults⟩ := List.nodup_cons.1 hnodup
      obtain ⟨hown, hlater, hdisjoint⟩ := List.nodup_append.1 hresults
      have hbetween : (between :: linkResults links).Nodup :=
        List.nodup_cons.2 ⟨fun hmem => hdisjoint _ link.target_mem _ hmem rfl, hlater⟩
      rcases List.mem_append.1 hn with hn | hn
      · intro hread
        have hend : target ∈ l.nodes.flatMap Node.results ++ linkResults links :=
          List.mem_append.2 (chain.target_mem.imp_left fun e => by rw [e]; exact link.target_mem)
        rcases (link.inputs hn hread).2 with rfl | ⟨c, hc, hmem⟩
        · exact hsource hend
        · rcases chain.target_mem with rfl | hlast
          · exact link.not_mem_constant hown hc hmem
          · exact hdisjoint _ (link.mem_results.2 (.inr ⟨c, hc, hmem⟩)) _ hlast rfl
      · exact ih hbetween hn

/-- Where a link stands in a chain. -/
theorem exists_cut (h : Chain rank source links target perms) {l : Link} (hl : l ∈ links) :
    ∃ before after s t ps qs rs, links = before ++ l :: after ∧ Chain rank source before s ps ∧
      l.Leads rank s t qs ∧ Chain rank t after target rs ∧ perms = ps ++ (qs ++ rs) := by
  obtain ⟨before, after, rfl⟩ := List.append_of_mem hl
  obtain ⟨s, ps, _, hbefore, hrest, rfl⟩ := append_iff.1 h
  obtain ⟨t, qs, rs, link, hafter, rfl⟩ := cons_iff.1 hrest
  exact ⟨before, after, s, t, ps, qs, rs, rfl, hbefore, link, hafter, rfl⟩

end Chain

/-! ## The same chain under other names -/

/-- Whether a node does what another one does, with values that are renamed by `σ`. -/
structure Node.Respelled (σ : String → String) (n m : Node) : Prop where
  op : m.op = n.op
  inputs : m.inputs = n.inputs.map σ
  outputs : m.outputs = n.outputs.map σ
  attributes : m.attributes = n.attributes

namespace Node.Respelled

variable {σ : String → String} {n m : Node}

theorem numbers? (h : n.Respelled σ m) (key : String) : m.numbers? key = n.numbers? key := by
  unfold Node.numbers? Node.attribute?
  rw [h.attributes]

theorem constant? (h : n.Respelled σ m) : m.constant? = n.constant? := by
  unfold Node.constant? Node.literal? Node.attribute?
  rw [h.op, h.inputs, h.outputs, h.attributes, List.isEmpty_map, List.length_map]

theorem bodies (h : n.Respelled σ m) : m.bodies = n.bodies := by
  unfold Node.bodies
  rw [h.attributes]

end Node.Respelled

/-- A link with other nodes. -/
def Link.map (f : Node → Node) (l : Link) : Link := ⟨f l.node, l.constants.map f⟩

theorem Link.nodes_map (f : Node → Node) (links : List Link) :
    (links.map (Link.map f)).flatMap Link.nodes = (links.flatMap Link.nodes).map f := by
  rw [List.flatMap_map, List.map_flatMap]
  rfl

section Respelled

variable {rank : Nat} {source target : String} {σ : String → String} {f : Node → Node}
  (hσ : ∀ value, value ≠ "" → σ value ≠ "")

include hσ

theorem Link.Leads.map {l : Link} {perms : List (List Nat)}
    (hf : ∀ n ∈ l.nodes, n.Respelled σ (f n)) (h : l.Leads rank source target perms) :
    (l.map f).Leads rank (σ source) (σ target) perms := by
  have hnamed := h.named
  have hnamed' := And.intro (hσ source hnamed.1) (hσ target hnamed.2)
  have hnode := hf l.node List.mem_cons_self
  cases h with
  | transposing _ op inputs outputs spelled perm length =>
      exact .transposing hnamed' (hnode.op.trans op) (by simp [hnode.inputs, inputs])
        (by simp [hnode.outputs, outputs]) ((hnode.numbers? "perm").trans spelled) perm length
  | elementwise _ capability inputs outputs =>
      exact .elementwise hnamed' (hnode.op ▸ capability) (by simp [hnode.inputs, inputs])
        (by simp [hnode.outputs, outputs])
  | @combining _ operand n constant _ _ capability inputs outputs literal yields present turnable =>
      have hconstant := hf constant (List.mem_cons_of_mem _ (List.mem_singleton_self _))
      refine .combining hnamed' (hnode.op ▸ capability) ?_ (by simp [hnode.outputs, outputs])
        (hconstant.constant?.trans literal) (by simp [hconstant.outputs, yields])
        (hσ operand present) turnable
      exact inputs.imp (fun e => by simp [hnode.inputs, e]) fun e => by simp [hnode.inputs, e]

/-- A chain stays one when its values are renamed. -/
theorem Chain.map {links : List Link} {perms : List (List Nat)}
    (hf : ∀ n ∈ links.flatMap Link.nodes, n.Respelled σ (f n))
    (h : Chain rank source links target perms) :
    Chain rank (σ source) (links.map (Link.map f)) (σ target) perms := by
  induction h with
  | nil => exact .nil
  | cons link _ ih =>
      exact .cons (link.map hσ fun n hn => hf n (List.mem_append_left _ hn))
        (ih fun n hn => hf n (List.mem_append_right _ hn))

end Respelled

/-! ## Graphs that are chains -/

namespace Graph

/-- Whether the value `value` is known to have another rank than `rank`, if anything is known of it. -/
def RankedAs (g : Graph) (rank : Nat) (value : String) : Prop :=
  ∀ info, g.infos.get? value = some info → ∀ dims, info.shape = some dims → dims.length = rank

/-- A graph that is a chain from its only input to its only output: it has the nodes of some links,
and no value on the way is known to have another rank than that of the permutations. -/
structure Chained (rank : Nat) (x y : String) (links : List Link) (perms : List (List Nat))
    (g : Graph) : Prop where
  inputs : g.inputs = [x]
  outputs : g.outputs = [y]
  chain : Chain rank x links y perms
  nodes : g.nodes.Perm (links.flatMap Link.nodes)
  bodyless : ∀ n ∈ g.nodes, n.bodies = []
  ranked : ∀ value, value = x ∨ (∃ l ∈ links, value ∈ l.node.outputs) → g.RankedAs rank value

namespace Chained

variable {rank : Nat} {x y : String} {links before after : List Link} {l : Link}
  {perms : List (List Nat)} {g : Graph}

theorem mem_nodes (h : g.Chained rank x y links perms) {n : Node} :
    n ∈ g.nodes ↔ ∃ l ∈ links, n ∈ l.nodes := by
  rw [h.nodes.mem_iff, List.mem_flatMap]

/-- What nodes a chain has. -/
theorem kind (h : g.Chained rank x y links perms) {n : Node} (hn : n ∈ g.nodes) :
    n.op = "Transpose" ∨ n.op = "Constant" ∨
      Capability.ofOp n.op = .unary ∨ Capability.ofOp n.op = .broadcast := by
  obtain ⟨l, hl, hn⟩ := h.mem_nodes.1 hn
  obtain ⟨_, _, _, _, _, _, _, -, -, link, -, -⟩ := h.chain.exists_cut hl
  exact link.kind hn

/-- No node of a chain takes sizes. -/
theorem capability_ne_shape (h : g.Chained rank x y links perms) {n : Node} (hn : n ∈ g.nodes) :
    Capability.ofOp n.op ≠ .shape := by
  rcases h.kind hn with hop | hop | hop | hop <;> rw [hop] <;> decide

/-- Nor is any other operator in a chain that does not let transpositions through. -/
theorem op_ne (h : g.Chained rank x y links perms) {op : String}
    (hop : op ≠ "Transpose" ∧ op ≠ "Constant" ∧ Capability.ofOp op = .barrier) {n : Node}
    (hn : n ∈ g.nodes) : n.op ≠ op := by
  rintro rfl
  rcases h.kind hn with hkind | hkind | hkind | hkind
  · exact hop.1 hkind
  · exact hop.2.1 hkind
  · cases hkind.symm.trans hop.2.2
  · cases hkind.symm.trans hop.2.2

/-- The nodes of a chain read what they take in. -/
theorem mem_reads (h : g.Chained rank x y links perms) {n : Node} (hn : n ∈ g.nodes)
    {value : String} : value ∈ n.reads ↔ value ∈ n.inputs ∧ value ≠ "" := by
  rw [Node.mem_reads, h.bodyless n hn]
  simp

/-- All values of a chain are distinct. -/
theorem nodup {visible : String → Prop} (h : g.Chained rank x y links perms)
    (hg : Scoped visible g) : (x :: linkResults links).Nodup := by
  have hresults : g.results.Perm (linkResults links) := h.nodes.flatMap_right Node.results
  refine List.nodup_cons.2 ⟨fun hmem => ?_, hresults.nodup_iff.1 hg.results⟩
  exact hg.apart x (hresults.mem_iff.2 hmem) (by simp [h.inputs])

/-- What a constant of a chain yields is neither the input nor what a link is for. -/
theorem constant_apart {visible : String → Prop} (h : g.Chained rank x y links perms)
    (hg : Scoped visible g) (hl : l ∈ links) {c : Node} (hc : c ∈ l.constants) {value : String}
    (hvalue : value ∈ c.results) : value ≠ x ∧ ∀ k ∈ links, value ∉ k.node.outputs := by
  have hmem : c ∈ g.nodes := h.mem_nodes.2 ⟨l, hl, List.mem_cons_of_mem _ hc⟩
  refine ⟨?_, fun k hk hout => ?_⟩
  · rintro rfl
    exact hg.apart _ (mem_results.2 ⟨c, hmem, hvalue⟩) (by simp [h.inputs])
  · have hk' : k.node ∈ g.nodes := h.mem_nodes.2 ⟨k, hk, List.mem_cons_self⟩
    have hname := hg.once value c hmem k.node hk' hvalue
      (Node.mem_results.2 ⟨hout, Node.ne_empty_of_mem_results hvalue⟩)
    obtain ⟨_, _, _, _, _, _, _, -, -, link, -, -⟩ := h.chain.exists_cut hl
    obtain ⟨_, _, _, _, _, _, _, -, -, link', -, -⟩ := h.chain.exists_cut hk
    have heq : c = k.node := List.inj_on_of_nodup_map hg.names hmem hk' hname
    exact link'.op_ne_constant (heq ▸ link.op_of_mem_constants hc)

section Cut

variable {visible : String → Prop} {s t : String} {ps qs rs : List (List Nat)}

/-- The values before a link, its own, and those behind it are distinct. -/
theorem apart (h : g.Chained rank x y (before ++ l :: after) perms) (hg : Scoped visible g) :
    (x :: linkResults before).Nodup ∧ (l.nodes.flatMap Node.results).Nodup ∧
      (linkResults after).Nodup ∧
      (∀ value ∈ x :: linkResults before,
        value ∉ l.nodes.flatMap Node.results ∧ value ∉ linkResults after) ∧
      ∀ value ∈ l.nodes.flatMap Node.results, value ∉ linkResults after := by
  have hnodup := h.nodup hg
  rw [Link.results_append, ← List.cons_append, Link.results_cons] at hnodup
  obtain ⟨hbefore, hrest, hdisjoint⟩ := List.nodup_append.1 hnodup
  obtain ⟨hown, hafter, hdisjoint'⟩ := List.nodup_append.1 hrest
  refine ⟨hbefore, hown, hafter, fun value hvalue => ?_, fun value hvalue hmem =>
    hdisjoint' value hvalue value hmem rfl⟩
  rw [← not_or, ← List.mem_append]
  exact fun hmem => hdisjoint value hvalue value hmem rfl

/-- Neither a link nor what comes behind it yields the value before the link. -/
theorem source_not_mem (h : g.Chained rank x y (before ++ l :: after) perms) (hg : Scoped visible g)
    (hbefore : Chain rank x before s ps) : s ∉ linkResults (l :: after) := by
  rw [Link.results_cons, List.mem_append, not_or]
  exact (h.apart hg).2.2.2.1 s (List.mem_cons.2 hbefore.target_mem)

/-- Nothing behind a link yields the value behind it. -/
theorem target_not_mem (h : g.Chained rank x y (before ++ l :: after) perms) (hg : Scoped visible g)
    (link : l.Leads rank s t qs) : t ∉ linkResults after :=
  (h.apart hg).2.2.2.2 t link.target_mem

/-- The value before a link is read by the node of that link alone. -/
theorem reads_source (h : g.Chained rank x y (before ++ l :: after) perms) (hg : Scoped visible g)
    (hbefore : Chain rank x before s ps) (hrest : Chain rank s (l :: after) y qs) {n : Node}
    (hn : n ∈ g.nodes) (hread : s ∈ n.reads) : n = l.node := by
  obtain ⟨hfirst, hown, hlast, hapart, hapart'⟩ := h.apart hg
  have hread := ((h.mem_reads hn).1 hread).1
  rw [h.nodes.mem_iff, List.flatMap_append, List.mem_append] at hn
  rcases hn with hn | hn
  · exact absurd hread (hbefore.not_mem_inputs hfirst hn)
  · refine hrest.eq_node_of_source ?_ hn hread
    rw [Link.results_cons, List.nodup_cons, List.mem_append, not_or, List.nodup_append]
    exact ⟨hapart s (List.mem_cons.2 hbefore.target_mem), hown, hlast, fun value hvalue other hother e =>
      hapart' value hvalue (e ▸ hother)⟩

variable (h : g.Chained rank x y (before ++ l :: after) perms) (hg : Scoped visible g)
  (hbefore : Chain rank x before s ps) (link : l.Leads rank s t qs) (hafter : Chain rank t after y rs)

include h hg hbefore link hafter

/-- The value behind a link is read by the node of the next link alone. -/
theorem reads_target {n : Node} (hn : n ∈ g.nodes) (hread : t ∈ n.reads) :
    ∃ next rest, after = next :: rest ∧ n = next.node := by
  cases after with
  | nil =>
      cases hafter
      refine absurd ((h.mem_reads hn).1 hread).1 (h.chain.not_mem_inputs (h.nodup hg) ?_)
      exact h.nodes.mem_iff.1 hn
  | cons next rest =>
      refine ⟨next, rest, rfl, ?_⟩
      have hcut : before ++ l :: next :: rest = (before ++ [l]) ++ next :: rest := by simp
      rw [hcut] at h
      exact h.reads_source hg (Chain.append_iff.2 ⟨s, ps, _, hbefore, .cons link .nil, rfl⟩) hafter hn
        hread

/-- What the constants of a link yield is read by the node of that link alone. -/
theorem reads_constant {c : Node} (hc : c ∈ l.constants) {value : String} (hvalue : value ∈ c.results)
    {n : Node} (hn : n ∈ g.nodes) (hread : value ∈ n.reads) : n = l.node := by
  obtain ⟨-, hown, -, hapart, hapart'⟩ := h.apart hg
  have hread := ((h.mem_reads hn).1 hread).1
  have hresult : value ∈ l.nodes.flatMap Node.results := link.mem_results.2 (.inr ⟨c, hc, hvalue⟩)
  rw [h.nodes.mem_iff, List.flatMap_append, List.mem_append, List.flatMap_cons, List.mem_append] at hn
  rcases hn with hn | hn | hn
  · exact absurd hresult (hapart value (List.mem_cons.2 (hbefore.taken hn hread))).1
  · exact (link.inputs hn hread).1
  · rcases hafter.taken hn hread with rfl | hmem
    · exact absurd hvalue (link.not_mem_constant hown hc)
    · exact absurd hmem (hapart' value hresult)

end Cut

/-- Only the last link of a chain is for its output. -/
theorem isOutput_target {visible : String → Prop} {s t : String} {qs rs : List (List Nat)}
    (h : g.Chained rank x y (before ++ l :: after) perms) (hg : Scoped visible g)
    (link : l.Leads rank s t qs) (hafter : Chain rank t after y rs) :
    g.isOutput t = true ↔ after = [] := by
  obtain ⟨-, -, -, -, hapart'⟩ := h.apart hg
  simp only [isOutput, h.outputs, List.contains_eq_mem, List.mem_singleton, decide_eq_true_eq]
  constructor
  · intro heq
    cases after with
    | nil => rfl
    | cons next rest =>
        refine absurd (hafter.target_mem_cons) ?_
        exact heq ▸ hapart' t link.target_mem
  · rintro rfl
    cases hafter
    rfl

open Transposes in
/-- Where a transposition stands in a chain. -/
theorem exists_cut (h : g.Chained rank x y links perms) {s : Surroundings} {t : PlacedTranspose}
    (ht : t.Stands s g) : ∃ before after ps rs, links = before ++ ⟨t.node, []⟩ :: after ∧
      Chain rank x before t.source ps ∧ Link.Leads rank t.source ⟨t.node, []⟩ t.output [t.perm] ∧
      Chain rank t.output after y rs ∧ perms = ps ++ ([t.perm] ++ rs) := by
  obtain ⟨l, hl, hmem⟩ := h.mem_nodes.1 ht.mem
  obtain ⟨before, after, source, target, ps, qs, rs, rfl, hbefore, link, hafter, rfl⟩ :=
    h.chain.exists_cut hl
  obtain ⟨xs, p, rfl, rfl, hinputs, hspelled, hperm, -⟩ := link.of_transpose hmem ht.op
  obtain rfl := List.singleton_inj.1 (hinputs.symm.trans ht.inputs)
  obtain rfl := List.singleton_inj.1 (link.outputs.symm.trans ht.outputs)
  obtain rfl : p = t.perm := by
    have hresolved := ht.perm
    unfold resolvePermutation at hresolved
    rw [hspelled] at hresolved
    split at hresolved
    · exact Option.some.inj (hperm.symm.trans hresolved)
    · cases hresolved
  exact ⟨before, after, ps, rs, rfl, hbefore, link, hafter, rfl⟩

end Chained

end Graph

end TensorGraph
