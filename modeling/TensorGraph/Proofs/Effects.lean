import TensorGraph.Proofs.Relocated
import TensorGraph.Proofs.Rules

/-!
# What edits do

The edits of the passes come down to six effects on the nodes of a graph: a node is bypassed, a
value takes over the name of another one, a node is replaced by one that yields the same values,
sizes are gathered, a transposition changes places with an operator, and nodes go away.

## Main results

* `Rewriting.Edit.effect` -- the effect of an edit.
* `Rewriting.Effect.tidyTree` -- every edit keeps a tree tidy.
* `Rewriting.Effect.mem_outerReferences` -- what a graph takes from outside after an edit.
-/

namespace TensorGraph.Rewriting

open TensorGraph.Graph Transposes Relocation

/-- Reasons why another node with the same values may stand in the place of a node. -/
inductive Exchange (s : Surroundings) (g : Graph) (n : Node) : Kind → Node → Prop
  /-- What could be bypassed hands on a value. -/
  | shim {old new : String} (outputs : n.outputs = [old]) (distinct : old = new → old = "")
      (reason : StandsFor s g n new .move) :
      Exchange s g n .move { name := n.name, op := "Identity", inputs := [new], outputs := [old] }
  /-- Two transpositions in a row are one. -/
  | rebase {t : PlacedTranspose} {next : List Nat} (stands : t.Stands s g)
      (inputs : n.inputs = [t.output]) (present : t.output ≠ "")
      (resolved : resolvePermutation s.enclosing g n (some t.perm.length) = some next)
      (rank : next.length = t.perm.length) : Exchange s g n .move (rebased t n next)
  /-- Sizes that are known are a constant. -/
  | sizes {t : PlacedTranspose} {dims : List Number} (stands : t.Stands s g)
      (takes : takesSizes t n = true) (present : t.output ≠ "")
      (static : staticSizes? s g t.source = some dims) (rank : dims.length = t.perm.length) :
      Exchange s g n .resize (Node.constant n.name (n.outputs.headD "")
        (listLiteral (Permutation.arrange dims t.perm)))

/-- What an edit does to the nodes of a graph. -/
inductive Effect (s : Surroundings) (g : Graph) : Kind → Graph → Prop
  | bypassed {kind : Kind} {place : Nat} {n : Node} {old new : String} {h : Graph}
      (reason : StandsFor s g n new kind) (result : Bypassed g place n old new h) :
      Effect s g kind h
  | promoted {kind : Kind} {place : Nat} {n : Node} {old new : String} {h : Graph}
      (reason : StandsFor s g n new kind) (result : Promoted g place n old new h) :
      Effect s g kind h
  | replaced {kind : Kind} {place : Nat} {n k : Node} {h : Graph} (reason : Exchange s g n kind k)
      (result : Replaced g place n k h) : Effect s g kind h
  | gathered {t : PlacedTranspose} {place : Nat} {n : Node} {sizes indices gather : String}
      {h : Graph} (stands : t.Stands s g) (node : g.nodes[place]? = some n)
      (takes : takesSizes t n = true) (present : t.output ≠ "")
      (result : Gathered s g t place n sizes indices gather h) : Effect s g .resize h
  | relocated {t : PlacedTranspose} {place : Nat} {consumer : Node} {policy : ConstantPolicy}
      {attributes : List (String × Attribute)} {p : Plan}
      {arranged detached cleaned moved h : Graph} {placed : List (String × String)}
      {rebuiltPlace : Nat} (inside : t.output ∉ g.outputs)
      (readers : ∀ n ∈ g.nodes, t.output ∈ n.reads → n = consumer)
      (conditions : Relocatable s g t place consumer policy attributes p)
      (result : Moved s g t.place t.node place consumer t.perm attributes p arranged detached
        cleaned placed rebuiltPlace moved)
      (infos : h = { moved with
        infos := infosBehind t.perm t.output
          (g.info? s.enclosing (consumer.outputs.headD "")) moved }) :
      Effect s g .move h
  | removed {place : Nat} {h : Graph} (result : g.removeUnreferenced? place = some h) :
      Effect s g .cleanup h

/-! ## Values that stand for others -/

namespace StandsFor

variable {taken : String → Prop} {s : Surroundings} {g : Graph} {n : Node} {new : String}
  {kind : Kind}

theorem op (h : StandsFor s g n new kind) : n.op = "Identity" ∧ kind = .removal ∨
    n.op = "Transpose" ∧ kind = .move := by
  cases h with
  | forwarded op => exact .inl ⟨op, rfl⟩
  | unmoved stands node => exact .inr ⟨node ▸ stands.op, rfl⟩
  | undone _ resolved => exact .inr ⟨(resolvePermutation_ok resolved).1, rfl⟩
  | first _ resolved => exact .inr ⟨(resolvePermutation_ok resolved).1, rfl⟩
  | second stands node => exact .inr ⟨node ▸ stands.op, rfl⟩

theorem op_ne (h : StandsFor s g n new kind) : n.op ≠ "Gather" ∧ n.op ≠ "Constant" := by
  rcases h.op with ⟨hop, -⟩ | ⟨hop, -⟩ <;> rw [hop] <;> decide

/-- What stands for a value is read, or yielded by a transposition. -/
theorem source (h : StandsFor s g n new kind) (hn : n ∈ g.nodes) :
    (∃ m ∈ g.nodes, (m.op = "Identity" ∨ m.op = "Transpose") ∧ new ∈ m.inputs ∧ new ≠ "") ∨
      ∃ m ∈ g.nodes, m.op = "Transpose" ∧ m.outputs = [new] := by
  cases h with
  | forwarded op inputs present => exact .inl ⟨n, hn, .inl op, by simp [inputs], present⟩
  | unmoved stands _ source =>
      exact .inl ⟨_, stands.mem, .inr stands.op, by simp [stands.inputs, source],
        source ▸ stands.present⟩
  | undone stands _ _ source =>
      exact .inl ⟨_, stands.mem, .inr stands.op, by simp [stands.inputs, source],
        source ▸ stands.present⟩
  | first stands _ _ source =>
      exact .inr ⟨_, stands.mem, stands.op, by rw [stands.outputs, source]⟩
  | second _ _ mem resolved _ outputs =>
      exact .inr ⟨_, mem, (resolvePermutation_ok resolved).1, outputs⟩

theorem handles (h : StandsFor s g n new kind) (hn : n ∈ g.nodes) : g.Handles new := by
  rcases h.source hn with ⟨m, hm, -, hin, hne⟩ | ⟨m, hm, -, houtputs⟩
  · exact ⟨m, hm, .inl ⟨hin, hne⟩⟩
  · exact ⟨m, hm, .inr (.inl houtputs)⟩

theorem mentions (h : StandsFor s g n new kind) (hn : n ∈ g.nodes) :
    new = "" ∨ g.Mentions new := (h.handles hn).mentions

theorem unspare (h : StandsFor s g n new kind) (hn : n ∈ g.nodes) (hg : Tidy taken g) :
    ¬ g.Spare new := by
  intro hspare
  rcases h.source hn with ⟨m, hm, hop, hin, hne⟩ | ⟨m, hm, hop, houtputs⟩
  · have hgather := hspare.op_of_reads hg.names hm (Node.mem_reads.2 (.inl ⟨hin, hne⟩))
    rcases hop with hop | hop <;> exact absurd (hop.symm.trans hgather) (by decide)
  · obtain ⟨k, -, -, -, hout, -⟩ := hspare.gather
    refine hg.not_spare hm (Node.mem_results.2 ⟨by simp [houtputs], ?_⟩)
      (transposition_ne hop).1 (transposition_ne hop).2 hspare
    exact Node.ne_empty_of_mem_results hout

end StandsFor

/-- Where a node is neither a gathering one nor a constant, spare values do not hinder another
node from taking its place. -/
theorem agreeOn_of_unspare {taken : String → Prop} {g : Graph} (hg : Tidy taken g) {n k : Node}
    (hn : n ∈ g.nodes) (hop : n.op ≠ "Gather" ∧ n.op ≠ "Constant") (hname : k.name = n.name)
    (houtputs : k.outputs = n.outputs) {value : String} (hspare : g.Spare value)
    (hreads : value ∉ k.reads) : n.AgreeOn value k := by
  have hresults : value ∉ n.results := fun h => hg.not_spare hn h hop.1 hop.2 hspare
  have hne : value ≠ "" := by
    obtain ⟨_, -, -, -, hout, -⟩ := hspare.gather
    exact Node.ne_empty_of_mem_results hout
  refine ⟨hname, fun h => absurd h hresults, fun hin => absurd ?_ hop.1, fun h => absurd h hreads, ?_⟩
  · exact hspare.op_of_reads hg.names hn (Node.mem_reads.2 (.inl ⟨hin, hne⟩))
  · rw [Node.results, houtputs, Node.results]

/-! ## The effects of edits -/

theorem nodes_replaceInputs {g : Graph} {old new : String} (h : old = new → old = "") :
    (g.replaceInputs old new).nodes = g.nodes.map (Node.replaceReads old new) := by
  unfold Graph.replaceInputs
  split
  · rename_i heq
    obtain rfl := h heq
    subst heq
    refine (List.map_id g.nodes).symm.trans (List.map_congr_left fun n _ => ?_)
    rw [Node.replaceReads_of_not_mem, id]
    exact fun hread => Node.ne_empty_of_mem_reads hread rfl
  · rfl

variable {taken : String → Prop} {s : Surroundings} {g h : Graph}

theorem bypassed_of_redirect {kind : Kind} {place : Nat} {n : Node} {old new : String}
    {infos : InfoTable} (hg : Tidy taken g) (hn : g.nodes[place]? = some n)
    (houtputs : n.outputs = [old])
    (hinside : g.isOutput old = false) (hdistinct : old = new → old = "")
    (hreason : StandsFor s g n new kind) :
    Bypassed g place n old new (redirected g place old new infos) where
  node := hn
  outputs := houtputs
  op := hreason.op_ne
  other := hdistinct
  unspare := hreason.unspare (List.mem_of_getElem? hn) hg
  inputs := by simp [redirected, dropNode]
  yielded value hvalue := .inl (by simpa [redirected, dropNode] using hvalue)
  dropped hout := by
    have hold : old ∉ g.outputs := by simpa [isOutput] using hinside
    exact absurd (by simpa [redirected, dropNode] using hout) hold
  nodes := by
    change (g.replaceInputs old new).nodes.eraseIdx place = _
    rw [nodes_replaceInputs hdistinct]

theorem rebindOutput_ok {enclosing : List Graph} {old new : String}
    (hr : g.rebindOutput enclosing old new = .ok h) :
    h.inputs = g.inputs ∧ h.nodes = g.nodes ∧ h.outputs = g.outputs.map (substituteName old new) := by
  unfold rebindOutput at hr
  split at hr
  · cases hr
  · cases hr
    exact ⟨rfl, rfl, rfl⟩

theorem bypassed_of_passthrough {enclosing : List Graph} {place : Nat} {n : Node} {old new : String}
    (hg : Tidy taken g) (hn : g.nodes[place]? = some n) (houtputs : n.outputs = [old])
    (hdistinct : old = new → old = "") (hreason : StandsFor s g n new .removal)
    (hr : ((g.replaceInputs old new).dropNode place).rebindOutput enclosing old new = .ok h) :
    Bypassed g place n old new h := by
  obtain ⟨hinputs, hnodes, hyielded⟩ := rebindOutput_ok hr
  refine ⟨hn, houtputs, hreason.op_ne, hdistinct, hreason.unspare (List.mem_of_getElem? hn) hg,
    by simpa [dropNode] using hinputs, fun value hvalue => ?_, fun hout => ?_, ?_⟩
  · rw [hyielded] at hvalue
    refine (mem_map_substituteName hvalue).elim (fun h => .inr h.1) fun h => .inl ?_
    simpa [dropNode] using h.1
  · rw [hyielded] at hout
    exact (mem_map_substituteName hout).elim (fun h => hdistinct h.1) fun h => absurd rfl h.2
  · rw [hnodes]
    change (g.replaceInputs old new).nodes.eraseIdx place = _
    rw [nodes_replaceInputs hdistinct]

theorem promoted_of_promote {kind : Kind} {place : Nat} {n : Node} {old new : String}
    {between : Graph} (hg : Tidy taken g) (hn : g.nodes[place]? = some n) (houtputs : n.outputs = [old])
    (hyielded : g.isOutput old = true) (hproduced : new ∈ g.results) (hinside : g.isOutput new = false)
    (hreason : StandsFor s g n new kind)
    (hbetween : between = g ∨ between = g.replaceInputs old new)
    (hrenamed : (between.dropNode place).renameValue new old = .ok h) :
    Promoted g place n old new h := by
  have hmem := List.mem_of_getElem? hn
  have hne : new ≠ old := by
    rintro rfl
    rw [hyielded] at hinside
    cases hinside
  have hunspare := hreason.unspare hmem hg
  obtain ⟨before, hbefore, hnodes⟩ : ∃ before : Node → Node,
      (before = id ∨ before = Node.replaceReads old new) ∧ between.nodes = g.nodes.map before := by
    rcases hbetween with rfl | rfl
    · exact ⟨id, .inl rfl, by simp⟩
    · exact ⟨_, .inr rfl, nodes_replaceInputs fun e => absurd e.symm hne⟩
  have hsame : between.inputs = g.inputs ∧ between.outputs = g.outputs := by
    rcases hbetween with rfl | rfl <;> simp
  have hname : ∀ m : Node, (before m).name = m.name ∧ (before m).results = m.results := by
    rcases hbefore with rfl | rfl <;> simp
  have hsub : (between.dropNode place).nodes.Sublist (g.nodes.map before) := by
    rw [dropNode, hnodes]
    exact List.eraseIdx_sublist _ _
  have hnames : ((between.dropNode place).nodes.map Node.name).Nodup := by
    have := hsub.map Node.name
    rw [List.map_map, show Node.name ∘ before = Node.name from funext fun m => (hname m).1] at this
    exact hg.names.sublist this
  have honce : (between.dropNode place).Once new := by
    have hold := (hg.single new).resolve_right hunspare
    intro m hm m' hm' hvm hvm'
    obtain ⟨k, hk, rfl⟩ := List.mem_map.1 (hsub.mem hm)
    obtain ⟨k', hk', rfl⟩ := List.mem_map.1 (hsub.mem hm')
    rw [(hname k).1, (hname k').1]
    rw [(hname k).2] at hvm
    rw [(hname k').2] at hvm'
    exact hold k hk k' hk' hvm hvm'
  obtain ⟨-, rfl⟩ := renameValue_eq_ok hne hrenamed
  refine ⟨hn, houtputs, hreason.op_ne, fun e => hne e.symm, hproduced,
    by simpa [isOutput] using hinside, hunspare, ?_, ?_, before, hbefore, ?_⟩
  · change between.inputs.map (substituteName new old) = g.inputs
    rw [hsame.1, map_substituteName_of_not_mem]
    exact hg.apart new hproduced
  · change between.outputs.map (substituteName new old) = g.outputs
    rw [hsame.2, map_substituteName_of_not_mem]
    simpa [isOutput] using hinside
  · change (((between.dropNode place).renameProduced new old).replaceInputs new old).nodes = _
    rw [nodes_replaceInputs fun e => absurd e hne, nodes_renameProduced hnames honce, dropNode, hnodes,
      List.map_map, List.eraseIdx_map, List.eraseIdx_map, List.map_map]
    rfl

private theorem replaced_of_exchange {place : Nat} {n k : Node} (hg : Tidy taken g)
    (hn : g.nodes[place]? = some n) (hop : n.op ≠ "Gather" ∧ n.op ≠ "Constant")
    (hname : k.name = n.name) (houtputs : k.outputs = n.outputs) (hkeyed : n.Keyed → k.Keyed)
    (hbodies : ∀ body ∈ k.bodies, body ∈ n.bodies)
    (hreads : ∀ value ∈ k.inputs, value = "" ∨ g.Mentions value ∧ ¬ g.Spare value) :
    Replaced g place n k (g.putNode place k) where
  node := hn
  name := hname
  outputs := houtputs
  agree value hspare := by
    have hmem := List.mem_of_getElem? hn
    refine agreeOn_of_unspare hg hmem hop hname houtputs hspare fun hread => ?_
    rcases Node.mem_reads.1 hread with ⟨hin, hne⟩ | ⟨body, hbody, hout⟩
    · exact ((hreads value hin).resolve_left hne).2 hspare
    · exact hop.1 (hspare.op_of_reads hg.names hmem
        (Node.mem_reads.2 (.inr ⟨body, hbodies body hbody, hout⟩)))
  keyed := hkeyed
  bodies := hbodies
  reads value hvalue := (hreads value hvalue).imp_right And.left
  inputs := rfl
  yielded := rfl
  nodes := rfl

/-- What a transposition reads is mentioned and not spare. -/
theorem source_ok {t : PlacedTranspose} (ht : t.Stands s g) (hg : Tidy taken g) :
    g.Mentions t.source ∧ ¬ g.Spare t.source := by
  refine ⟨.inr ⟨ht.present, t.node, ht.mem, by simp [ht.inputs]⟩, fun hspare => ?_⟩
  exact (transposition_ne ht.op).1 (hspare.op_of_reads hg.names ht.mem ht.source_mem_reads)

theorem takesSizes_ne {t : PlacedTranspose} {n : Node} (h : takesSizes t n = true) :
    n.op ≠ "Gather" ∧ n.op ≠ "Constant" ∧ n.outputs = [n.outputs.headD ""] := by
  obtain ⟨hop, -, hlength⟩ := takesSizes_op h
  obtain ⟨value, hvalue⟩ := List.length_eq_one_iff.1 hlength
  refine ⟨?_, ?_, by rw [hvalue]; rfl⟩ <;> intro he <;> rw [he] at hop <;> exact absurd hop (by decide)

/-- An operator that changes places with a transposition does so in five steps. -/
theorem moved_of_relocate {t : PlacedTranspose} {place : Nat} {consumer : Node}
    {policy : ConstantPolicy} {attributes : List (String × Attribute)} {plan : Plan}
    (stands : t.Stands s g) (readers : g.readers t.output = [place])
    (node : g.nodes[place]? = some consumer) (outputs : consumer.outputs.length = 1)
    (reads : t.output ∈ consumer.inputs) (passage : passage? consumer t.spelled = some (policy, attributes))
    (planned : Relocation.plan s g t.source t.output t.perm policy consumer.inputs = .ok (some plan))
    (applied : Relocation.apply s g t.place t.node place consumer t.perm attributes plan = .ok h) :
    Relocatable s g t place consumer policy attributes plan ∧
      ∃ arranged detached cleaned placed rebuiltPlace moved,
        Moved s g t.place t.node place consumer t.perm attributes plan arranged detached cleaned
          placed rebuiltPlace moved ∧
        h = { moved with
          infos := infosBehind t.perm t.output
            (g.info? s.enclosing (consumer.outputs.headD "")) moved } := by
  have hpresent : t.output ≠ "" := by
    obtain ⟨n, -, hread⟩ := mem_readers.1 (readers ▸ List.mem_singleton_self place)
    exact Node.ne_empty_of_mem_reads hread
  obtain ⟨hoperands, habsorbed⟩ := plan_ok planned
  have houtputs : consumer.outputs = [consumer.outputs.headD ""] := by
    obtain ⟨value, hvalue⟩ := List.length_eq_one_iff.1 outputs
    rw [hvalue]
    rfl
  have hr : Relocatable s g t place consumer policy attributes plan :=
    ⟨stands, node, houtputs, hpresent, reads, passage, hoperands, habsorbed⟩
  exact ⟨hr, apply_ok (fun _ _ _ _ hmem => hr.isConstant hmem) applied⟩

/-- The effect of an edit. -/
theorem Edit.effect {kind : Kind} (he : Edit s g kind h) (hg : Tidy taken g) :
    Effect s g kind h := by
  cases he with
  | redirect node outputs inside apart distinct reason infos_eq =>
      exact .bypassed reason (bypassed_of_redirect hg node outputs inside distinct reason)
  | promote node outputs yielded produced inside reason between_eq renamed =>
      exact .promoted reason (promoted_of_promote hg node outputs yielded produced inside reason
        between_eq renamed)
  | shim node outputs distinct reason =>
      have hmem := List.mem_of_getElem? node
      refine .replaced (.shim outputs distinct reason) (replaced_of_exchange hg node reason.op_ne rfl
        outputs.symm (fun _ => .nil) (fun body hbody => by cases hbody) fun value hvalue => ?_)
      obtain rfl := List.mem_singleton.1 hvalue
      exact (reason.mentions hmem).imp_right fun h => ⟨h, reason.unspare hmem hg⟩
  | passthrough node op inputs present outputs yielded apart other enclosed outer rebound =>
      have hreason : StandsFor s g _ _ .removal := .forwarded op inputs present
      refine .bypassed hreason (bypassed_of_passthrough hg node outputs (fun heq => ?_) hreason rebound)
      exact absurd (Node.mem_reads.2 (.inl ⟨by simp [inputs, heq], heq ▸ present⟩)) apart
  | @rebase t place consumer next stands node inputs present resolved rank =>
      have hop := transposition_ne (resolvePermutation_ok resolved).1
      refine .replaced (.rebase stands inputs present resolved rank) (replaced_of_exchange hg node hop rfl
        rfl (fun h => Attributes.nodup_set h _ _) (fun body hbody => ?_) fun value hvalue => ?_)
      · exact Node.mem_bodies.2 (Attributes.mem_of_mem_set rfl (Node.mem_bodies.1 hbody))
      · obtain rfl := List.mem_singleton.1 hvalue
        exact .inr (source_ok stands hg)
  | @resize t place n stands node takes present =>
      obtain ⟨hgather, hconstant, houtputs⟩ := takesSizes_ne takes
      rcases rebaseSizes_resized s t g place n node with ⟨static, rank, heq⟩ | ⟨names⟩
      · rw [heq]
        exact .replaced (.sizes stands takes present static rank) (replaced_of_exchange hg node
          ⟨hgather, hconstant⟩ rfl houtputs.symm (fun _ => List.nodup_singleton _)
          (fun body hbody => by cases hbody) fun value hvalue => by cases hvalue)
      · exact .gathered stands node takes present names
  | relocate stands inside readers node outputs reads passage planned applied =>
      obtain ⟨hr, arranged, detached, cleaned, placed, rebuiltPlace, moved, hmoved, heq⟩ :=
        moved_of_relocate stands readers node outputs reads passage planned applied
      refine .relocated (by simpa [isOutput] using inside) (fun n hn hread => ?_) hr hmoved heq
      obtain ⟨i, hi⟩ := List.getElem?_of_mem hn
      have hi' := mem_readers.2 ⟨n, hi, hread⟩
      rw [readers] at hi'
      rw [List.mem_singleton.1 hi', node] at hi
      exact (Option.some.inj hi).symm
  | remove removed => exact .removed removed

/-- Every edit keeps a tree tidy. -/
theorem Effect.tidyTree {kind : Kind} (he : Effect s g kind h) (hg : TidyTree taken g)
    (hcovers : ∀ value, taken value → value ∈ s.reserved) : TidyTree taken h := by
  cases he with
  | bypassed reason result =>
      exact result.tidyTree hg (reason.handles (List.mem_of_getElem? result.node))
  | promoted reason result => exact result.tidyTree hg
  | replaced reason result => exact result.tidyTree hg
  | gathered stands node takes present result =>
      obtain ⟨hgather, hconstant, houtputs⟩ := takesSizes_ne takes
      exact result.tidyTree hg stands hcovers node ⟨hgather, hconstant⟩ houtputs
  | relocated inside readers conditions result infos =>
      rw [infos]
      exact (result.tidyTree conditions hg hcovers).of_subperm (.refl _) rfl rfl
  | removed result =>
      obtain ⟨n, -, -, rfl⟩ := removeUnreferenced?_eq_some result
      exact hg.of_subperm (List.eraseIdx_sublist _ _).subperm rfl rfl

/-- The bodies in a graph after an edit are those from before, up to names of which one stands for the
other. -/
theorem Effect.keepsBodies_of {kind : Kind} {allowed : String → String → Prop}
    (he : Effect s g kind h) (hg : TidyTree taken g)
    (hcovers : ∀ value, taken value → value ∈ s.reserved)
    (hallowed : ∀ n ∈ g.nodes, ∀ old new, n.outputs = [old] → StandsFor s g n new kind →
      (old ≠ "" → allowed old new) ∧ (new ∈ g.results → allowed new old)) :
    KeepsBodies allowed g h := by
  cases he with
  | bypassed reason result =>
      exact result.keepsBodies
        (hallowed _ (List.mem_of_getElem? result.node) _ _ result.outputs reason).1
  | promoted reason result =>
      obtain ⟨hforth, hback⟩ :=
        hallowed _ (List.mem_of_getElem? result.node) _ _ result.outputs reason
      exact result.keepsBodies hforth (hback result.produced)
  | replaced reason result => exact result.keepsBodies
  | gathered stands node takes present result => exact result.keepsBodies node
  | relocated inside readers conditions result infos =>
      rw [infos]
      exact (result.relocated conditions hg hcovers).keepsBodies conditions
  | removed result =>
      obtain ⟨n, -, -, rfl⟩ := removeUnreferenced?_eq_some result
      exact .of_subset (List.eraseIdx_sublist _ _).subset

/-- The bodies in a graph after an edit are those from before, with values in them that were handled in
the graph. -/
theorem Effect.keepsBodies {kind : Kind} (he : Effect s g kind h) (hg : TidyTree taken g)
    (hcovers : ∀ value, taken value → value ∈ s.reserved) :
    KeepsBodies (fun _ new => g.Handles new) g h :=
  he.keepsBodies_of hg hcovers fun n hn _ _ houtputs hreason =>
    ⟨fun _ => hreason.handles hn, fun _ => ⟨n, hn, .inr (.inl houtputs)⟩⟩

/-! ## What is used afterwards -/

theorem uses_of_mentions {value : String} (hvalue : value = "" ∨ g.Mentions value)
    (hne : value ≠ "") :
    g.defines value = true ∨ g.Uses value := by
  refine (hvalue.resolve_left hne).imp_right ?_
  rintro ⟨-, n, hn, hin⟩
  exact .inr ⟨n, hn, Node.mem_reads.2 (.inl ⟨hin, hne⟩)⟩

private theorem Gathered.uses {t : PlacedTranspose} {place : Nat} {n : Node}
    {sizes indices gather : String} (hr : Gathered s g t place n sizes indices gather h)
    (ht : t.Stands s g) (hn : g.nodes[place]? = some n) {value : String} (hused : h.Uses value) :
    h.defines value = true ∨ g.defines value = true ∨ g.Uses value := by
  rcases hused with ⟨hvalue, hne⟩ | ⟨k, hk, hread⟩
  · rw [hr.eq] at hvalue
    exact .inr (.inr (.inl ⟨hvalue, hne⟩))
  · rcases (hr.mem_nodes hn).1 hk with ⟨j, -, hj⟩ | rfl | rfl | rfl
    · exact .inr (.inr (.inr ⟨k, List.mem_of_getElem? hj, hread⟩))
    · rcases Gathered.mem_reads_sizesNode hread with rfl | hread
      · exact .inr (.inr (.inr ⟨t.node, ht.mem, ht.source_mem_reads⟩))
      · exact .inr (.inr (.inr ⟨n, List.mem_of_getElem? hn, hread⟩))
    · simp at hread
    · left
      obtain ⟨hvalue, hne⟩ := Gathered.mem_reads_gatherNode.1 hread
      refine defines_iff.2 (.inr (Graph.mem_results.2 ?_))
      rcases hvalue with rfl | rfl
      · exact ⟨_, (hr.mem_nodes hn).2 (.inr (.inl rfl)), Gathered.mem_results_sizesNode.2 ⟨rfl, hne⟩⟩
      · exact ⟨_, (hr.mem_nodes hn).2 (.inr (.inr (.inl rfl))),
          Gathered.mem_results_indicesNode.2 ⟨rfl, hne⟩⟩

private theorem Relocated.uses {t : PlacedTranspose} {place : Nat} {consumer : Node}
    {policy : ConstantPolicy} {attributes : List (String × Attribute)} {p : Plan}
    {inputs : List String} (hrel : Relocatable s g t place consumer policy attributes p)
    (hr : Relocated s g t consumer attributes inputs h) {value : String} (hused : h.Uses value) :
    h.defines value = true ∨ g.defines value = true ∨ g.Uses value := by
  have hdefined : ∀ n ∈ g.nodes, value ∈ n.results → g.defines value = true := fun n hn hvn =>
    defines_iff.2 (.inr (Graph.mem_results.2 ⟨n, hn, hvn⟩))
  rcases hused with ⟨hvalue, hne⟩ | ⟨k, hk, hread⟩
  · exact .inr (.inr (.inl ⟨hr.sameOutputs ▸ hvalue, hne⟩))
  · have hne := Node.ne_empty_of_mem_reads hread
    rcases hr.origin k hk with ⟨n, hn, -, -, hlike⟩ | ⟨target, literal, hlike, -⟩ | rfl | rfl
    · exact .inr (.inr (.inr ⟨n, hn, hlike.mem_reads.1 hread⟩))
    · have hnone := hlike.mem_reads.1 hread
      cases hnone
    · rcases Node.mem_reads.1 hread with ⟨hin, -⟩ | ⟨body, hbody, hout⟩
      · cases hr.fed value hin with
        | @before n _ input mem op inputs read result =>
            exact .inr (.inr (.inr ⟨n, mem, Node.mem_reads.2 (.inl ⟨by simp [inputs], hne⟩)⟩))
        | @constant n _ name mem op read result target =>
            rcases target with rfl | ⟨-, hnew⟩
            · exact .inr (.inl (hdefined n mem result))
            · exact .inl (defines_iff.2 (.inr (hr.defined value hin hne hnew)))
      · refine .inr (.inr (.inr ⟨consumer, hrel.mem, Node.mem_reads.2 (.inr ⟨body, ?_, hout⟩)⟩))
        exact Node.mem_bodies.2 ((passage?_eq_some hrel.passage).2.2 _ _ (Node.mem_bodies.1 hbody))
    · rcases Node.mem_reads.1 hread with ⟨hin, -⟩ | ⟨body, hbody, hout⟩
      · refine .inr (.inl (hdefined t.node hrel.stands.mem ?_))
        rw [List.mem_singleton.1 hin]
        exact hrel.mem_output
      · refine .inr (.inr (.inr ⟨t.node, hrel.stands.mem, Node.mem_reads.2 (.inr ⟨body, ?_, hout⟩)⟩))
        exact Node.mem_bodies.2 (Attributes.mem_of_mem_set rfl (Node.mem_bodies.1 hbody))

/-- What an edit leaves in use is defined in the graph afterwards, or was before, or was in use
before. -/
theorem Effect.uses {kind : Kind} (he : Effect s g kind h) (hg : TidyTree taken g)
    (hcovers : ∀ value, taken value → value ∈ s.reserved) {value : String} (hused : h.Uses value) :
    h.defines value = true ∨ g.defines value = true ∨ g.Uses value := by
  cases he with
  | @bypassed kind place n old new h reason result =>
      have hmem := List.mem_of_getElem? result.node
      rcases hused with ⟨hvalue, hne⟩ | ⟨k, hk, hread⟩
      · rcases result.yielded value hvalue with hvalue | rfl
        · exact .inr (.inr (.inl ⟨hvalue, hne⟩))
        · exact .inr (uses_of_mentions (reason.mentions hmem) hne)
      · obtain ⟨-, m, hm, -, ⟨rfl, -⟩ | hread⟩ := result.mem_reads hk hread
        · exact .inr (uses_of_mentions (reason.mentions hmem) (Node.ne_empty_of_mem_reads hread))
        · exact .inr (.inr (.inr ⟨m, hm, hread⟩))
  | @promoted kind place n old new h reason result =>
      rcases hused with ⟨hvalue, hne⟩ | ⟨k, hk, hread⟩
      · exact .inr (.inr (.inl ⟨result.yielded ▸ hvalue, hne⟩))
      · have hne := Node.ne_empty_of_mem_reads hread
        obtain ⟨before, hbefore, j, m, -, hm, rfl⟩ := result.mem_nodes hk
        rcases (result.mem_reads_node hbefore hread).2 with ⟨rfl, -⟩ | hread
        · refine .inr (.inl (defines_iff.2 (.inr (Graph.mem_results.2
            ⟨n, List.mem_of_getElem? result.node, ?_⟩))))
          exact Node.mem_results.2 ⟨by simp [result.outputs], hne⟩
        · exact .inr (.inr (.inr ⟨m, List.mem_of_getElem? hm, hread⟩))
  | @replaced kind place n k h reason result =>
      rcases hused with ⟨hvalue, hne⟩ | ⟨m, hm, hread⟩
      · exact .inr (.inr (.inl ⟨result.yielded ▸ hvalue, hne⟩))
      · rcases result.mem_nodes.1 hm with rfl | ⟨j, -, hj⟩
        · rcases Node.mem_reads.1 hread with ⟨hin, hne⟩ | ⟨body, hbody, hout⟩
          · exact .inr (uses_of_mentions (result.reads value hin) hne)
          · exact .inr (.inr (.inr ⟨n, List.mem_of_getElem? result.node,
              Node.mem_reads.2 (.inr ⟨body, result.bodies body hbody, hout⟩)⟩))
        · exact .inr (.inr (.inr ⟨m, List.mem_of_getElem? hj, hread⟩))
  | gathered stands node takes present result => exact Gathered.uses result stands node hused
  | relocated inside readers conditions result infos =>
      have hr := result.relocated conditions hg hcovers
      rw [infos] at hused ⊢
      exact Relocated.uses conditions hr.withInfos hused
  | removed result =>
      obtain ⟨n, -, -, rfl⟩ := removeUnreferenced?_eq_some result
      rcases hused with hvalue | ⟨k, hk, hread⟩
      · exact .inr (.inr (.inl hvalue))
      · exact .inr (.inr (.inr ⟨k, List.mem_of_mem_eraseIdx hk, hread⟩))

/-- What a graph takes from outside after an edit it took from there before, or it defined it
itself. -/
theorem Effect.mem_outerReferences {kind : Kind} (he : Effect s g kind h) (hg : TidyTree taken g)
    (hcovers : ∀ value, taken value → value ∈ s.reserved) {value : String}
    (hvalue : value ∈ h.outerReferences) : value ∈ g.outerReferences ∨ g.defines value = true := by
  obtain ⟨hundefined, hused⟩ := mem_outerReferences_iff.1 hvalue
  rcases he.uses hg hcovers hused with hdef | hdef | hused
  · rw [hundefined] at hdef
    cases hdef
  · exact .inr hdef
  · by_cases hdef : g.defines value = true
    · exact .inr hdef
    · exact .inl (mem_outerReferences_iff.2 ⟨by simpa using hdef, hused⟩)

end TensorGraph.Rewriting
