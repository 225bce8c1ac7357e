import TensorGraph.Proofs.Idempotence
import TensorGraph.Proofs.Lineage
import TensorGraph.Proofs.Repeating

/-!
# The interface of a graph

Inputs are never touched, and an output slot gets another name only in a body, whose host does not
see the names. What the root knows of the values that it declares is kept as well, as long as none of
them has the empty name: absent outputs share that name, and what is known of it is forgotten with any
node that has one.

## Main results

* `Rewriting.Edit.entry` -- an edit of a root keeps the entries of declared values.
* `Rewriting.Run.lineal_slots` -- after any run every graph has the slots of the one that it comes from.
* `Optimizer.optimize_interface` -- optimizing preserves the interface.
-/

namespace TensorGraph

open TensorGraph.Graph

namespace Graph

/-- Whether a graph has the inputs of another one, and as many outputs. -/
structure SameSlots (g h : Graph) : Prop where
  inputs : h.inputs = g.inputs
  outputs : h.outputs.length = g.outputs.length

theorem SameSlots.refl (g : Graph) : SameSlots g g := ⟨rfl, rfl⟩

theorem SameSlots.trans {g h k : Graph} (h₁ : SameSlots g h) (h₂ : SameSlots h k) : SameSlots g k :=
  ⟨h₂.inputs.trans h₁.inputs, h₂.outputs.trans h₁.outputs⟩

/-- Whether a graph declares a value, as an input or as an output. -/
def Declares (g : Graph) (name : String) : Prop :=
  name ≠ "" ∧ (name ∈ g.inputs ∨ name ∈ g.outputs)

/-- Whether there is an entry for all that a graph declares. -/
def Annotated (g : Graph) : Prop := ∀ name, g.Declares name → (g.infos.get? name).isSome = true

/-- Whether a graph declares the same values as another one, and knows the same of them. -/
structure SameInterface (g h : Graph) : Prop where
  inputs : h.inputs = g.inputs
  outputs : h.outputs = g.outputs
  entries : ∀ name, g.Declares name → h.infos.get? name = g.infos.get? name

namespace SameInterface

variable {g h k : Graph}

theorem refl (g : Graph) : SameInterface g g := ⟨rfl, rfl, fun _ _ => rfl⟩

theorem declares (hsame : SameInterface g h) {name : String} : h.Declares name ↔ g.Declares name := by
  unfold Declares
  rw [hsame.inputs, hsame.outputs]

theorem trans (h₁ : SameInterface g h) (h₂ : SameInterface h k) : SameInterface g k where
  inputs := h₂.inputs.trans h₁.inputs
  outputs := h₂.outputs.trans h₁.outputs
  entries name hname := (h₂.entries name (h₁.declares.2 hname)).trans (h₁.entries name hname)

theorem annotated (hsame : SameInterface g h) (hg : g.Annotated) : h.Annotated := by
  intro name hname
  have hdeclared := hsame.declares.1 hname
  rw [hsame.entries name hdeclared]
  exact hg name hdeclared

end SameInterface

/-! ## Entries -/

theorem Declares.ne_mem {g : Graph} {name : String} (hname : g.Declares name) {names : List String}
    (hapart : ∀ value ∈ names, value ≠ "" → value ∉ g.inputs ∧ value ∉ g.outputs) : name ∉ names :=
  fun hmem => hname.2.elim (hapart name hmem hname.1).1 (hapart name hmem hname.1).2

/-- Whether no value that a node of a graph yields is an input of it. -/
def Apart (g : Graph) : Prop := ∀ value ∈ g.results, value ∉ g.inputs

theorem Apart.ne_mem {g : Graph} (hg : g.Apart) {n : Node} (hn : n ∈ g.nodes) {value : String}
    (hvalue : value ∈ n.outputs) (hne : value ≠ "") : value ∉ g.inputs :=
  hg value (mem_results.2 ⟨n, hn, Node.mem_results.2 ⟨hvalue, hne⟩⟩)

/-- The interface stays when a node goes that nothing needs. -/
theorem sameInterface_of_removed {g h : Graph} {place : Nat} (hg : g.Apart)
    (hremoved : g.removeUnreferenced? place = some h) : SameInterface g h ∧ h.Apart := by
  obtain ⟨n, hn, hunused, rfl⟩ := removeUnreferenced?_eq_some hremoved
  refine ⟨⟨rfl, rfl, fun name hname => get?_foldl_erase (hname.ne_mem fun value hvalue hne => ?_) _⟩,
    fun value hvalue => hg value ?_⟩
  · refine ⟨hg.ne_mem (List.mem_of_getElem? hn) hvalue hne, fun hout => ?_⟩
    have hunused := hunused value hvalue
    simp [isUsedBeside, isOutput, hout] at hunused
  · obtain ⟨m, hm, hvm⟩ := mem_results.1 hvalue
    exact mem_results.2 ⟨m, List.mem_of_mem_eraseIdx hm, hvm⟩

/-! ## Slots -/

theorem sameSlots_substituteOuter (old new : String) (g : Graph) :
    SameSlots g (g.substituteOuter old new) := by
  rw [substituteOuter_eq]
  split
  · exact .refl g
  · exact ⟨rfl, List.length_map _⟩

theorem sameSlots_putBody (g : Graph) (place : Nat) (key : String) (new : Graph) :
    SameSlots g (g.putBody place key new) := ⟨by simp, by simp⟩

end Graph

namespace Relocation

open TensorGraph.Graph Transposes

variable {s : Surroundings} {g h : Graph}

/-- The interface stays when a transposition moves behind an operator. -/
theorem Moved.sameInterface {t : PlacedTranspose} {place : Nat} {consumer : Node}
    {policy : ConstantPolicy} {attributes : List (String × Attribute)} {p : Plan}
    {arranged detached cleaned moved : Graph} {placed : List (String × String)} {rebuiltPlace : Nat}
    (hm : Moved s g t.place t.node place consumer t.perm attributes p arranged detached cleaned placed
      rebuiltPlace moved)
    (hr : Relocatable s g t place consumer policy attributes p) (hg : TidyIn s g)
    (inside : g.isOutput t.output = false) (yieldedInfo : Option ValueInfo) :
    SameInterface g { moved with infos := infosBehind t.perm t.output yieldedInfo moved } := by
  have hrelocated := hm.relocated hr hg.tree hg.covers
  refine ⟨hrelocated.sameInputs, hrelocated.sameOutputs, fun name hname => ?_⟩
  -- what is declared is no input that a node yields, and no output of a node without outputs
  have hundeclared : ∀ n ∈ g.nodes, (∀ output ∈ n.outputs, g.isOutput output = false) →
      name ∉ n.outputs := by
    intro n hn hunused hmem
    refine hname.2.elim (Apart.ne_mem hg.tree.here.apart hn hmem hname.1) fun hout => ?_
    simpa [isOutput, hout] using hunused name hmem
  refine hm.get?_infos hr hg.tree hg.covers inside yieldedInfo
    (.inr (hname.2.elim mem_names_of_mem_inputs mem_names_of_mem_outputs))
    (fun n hn _ hunused => hundeclared n hn hunused) fun n hn _ constant _ _ houtputs hunused heq => ?_
  exact hundeclared n hn (by simpa [houtputs] using hunused) (by simp [houtputs, heq])

end Relocation

namespace Rewriting

open TensorGraph.Graph Transposes Relocation

variable {s : Surroundings} {g h : Graph} {kind : Kind}

/-- An edit leaves inputs alone, and outputs too, unless a slot of a body takes another value. -/
theorem Edit.declared (he : Edit s g kind h) (hg : TidyIn s g) :
    h.inputs = g.inputs ∧ (h.outputs = g.outputs ∨
      s.enclosing ≠ [] ∧ h.outputs.length = g.outputs.length) := by
  cases he with
  | redirect => simp [redirected, dropNode]
  | promote node outputs yielded produced inside reason between_eq renamed =>
      have hp := promoted_of_promote hg.tree.here node outputs yielded produced inside reason
        between_eq renamed
      exact ⟨hp.inputs, .inl hp.yielded⟩
  | shim => exact ⟨rfl, .inl rfl⟩
  | passthrough node op inputs present outputs yielded apart other enclosed outer rebound =>
      obtain ⟨hinputs, -, houtputs⟩ := rebindOutput_ok rebound
      refine ⟨hinputs.trans (by simp [dropNode]), .inr ⟨enclosed, ?_⟩⟩
      rw [houtputs]
      simp [dropNode]
  | rebase => exact ⟨rfl, .inl rfl⟩
  | @resize t place n stands node takes present =>
      rcases rebaseSizes_resized s t g place n node with ⟨-, -, heq⟩ | ⟨names⟩
      · rw [heq]
        exact ⟨rfl, .inl rfl⟩
      · rw [names.eq]
        exact ⟨rfl, .inl rfl⟩
  | relocate stands inside readers node outputs reads passage planned applied =>
      obtain ⟨hr, arranged, detached, cleaned, placed, rebuiltPlace, moved, hmoved, rfl⟩ :=
        moved_of_relocate stands readers node outputs reads passage planned applied
      have hrelocated := hmoved.relocated hr hg.tree hg.covers
      exact ⟨hrelocated.sameInputs, .inl hrelocated.sameOutputs⟩
  | remove removed =>
      obtain ⟨_, -, -, rfl⟩ := removeUnreferenced?_eq_some removed
      exact ⟨rfl, .inl rfl⟩

theorem Edit.sameSlots (he : Edit s g kind h) (hg : TidyIn s g) : SameSlots g h where
  inputs := (he.declared hg).1
  outputs := (he.declared hg).2.elim (congrArg List.length) And.right

/-- An edit of a root keeps its interface. -/
theorem Edit.sameInterface (he : Edit s g kind h) (hg : TidyIn s g) (hs : s.enclosing = [])
    (hknown : g.Annotated) : SameInterface g h := by
  obtain ⟨hinputs, houtputs⟩ := he.declared hg
  refine ⟨hinputs, houtputs.resolve_right fun h => h.1 hs, fun name hname => ?_⟩
  have hapart : g.Apart := hg.tree.here.apart
  cases he with
  | redirect node outputs inside apart distinct reason infos_eq =>
      rcases infos_eq with rfl | ⟨rfl, -⟩
      · refine (InfoTable.get?_erase _ _ _).trans (if_neg ?_)
        rintro rfl
        exact hname.2.elim (hapart.ne_mem (List.mem_of_getElem? node) (by simp [outputs]) hname.1)
          (by simpa [isOutput] using inside)
      · rfl
  | @promote _ place n old new between after node outputs yielded produced inside reason between_eq
      renamed =>
      have hne : new ≠ old := by
        rintro rfl
        exact absurd (inside.symm.trans yielded) (by decide)
      have hinfos : between.infos = g.infos := by
        rcases between_eq with rfl | rfl <;> simp
      obtain ⟨-, rfl⟩ := renameValue_eq_ok hne renamed
      refine (get?_movedInfos ?_ fun _ => ?_).trans (congrArg (InfoTable.get? · name) hinfos)
      · rintro rfl
        exact hname.2.elim (hapart _ produced) (by simpa [isOutput] using inside)
      · change (between.infos.get? name).isSome = true
        rw [hinfos]
        exact hknown name hname
  | shim => rfl
  | passthrough _ _ _ _ _ _ _ _ enclosed => exact absurd hs enclosed
  | rebase => rfl
  | @resize t place n stands node takes present =>
      rcases rebaseSizes_resized s t g place n node with ⟨-, -, heq⟩ | ⟨names⟩
      · rw [heq]
        rfl
      · rw [names.eq]
        refine (InfoTable.get?_set _ _ _).trans (if_neg ?_)
        rintro rfl
        exact names.newSizes.2 (hname.2.elim mem_names_of_mem_inputs mem_names_of_mem_outputs)
  | relocate stands inside readers node outputs reads passage planned applied =>
      obtain ⟨hr, arranged, detached, cleaned, placed, rebuiltPlace, moved, hmoved, rfl⟩ :=
        moved_of_relocate stands readers node outputs reads passage planned applied
      exact (hmoved.sameInterface hr hg inside _).entries name hname
  | remove removed => exact (sameInterface_of_removed hapart removed).1.entries name hname

/-- After a rewrite every graph of the tree has the slots of the one that it comes from. -/
theorem Rewrite.lineal_slots (hr : Rewrite s g h) (hg : TidyIn s g) : Lineal SameSlots g h := by
  have hedit : ∀ {g h kind}, Edit s g kind h → TidyIn s g → Lineal SameSlots g h := fun he hg =>
    .of_keepsBodies .refl .trans (fun old new _ k => sameSlots_substituteOuter old new k)
      (he.sameSlots hg) ((he.effect hg.tree.here).keepsBodies hg.tree hg.covers)
  exact hr.of_edits (.refl .refl) (fun h₁ h₂ => h₁.trans .trans h₂) hedit hg

/-- After any run every graph of the tree has the slots of the one that it comes from. -/
theorem Run.lineal_slots {count : Nat} (hr : Run s g count h) (hg : TidyIn s g) :
    Lineal SameSlots g h := by
  refine hr.of_steps (.refl .refl) (fun h₁ h₂ => h₁.trans .trans h₂) (fun g h hg hstep => ?_)
    (fun g h hg hstep => ?_) hg
  · exact hstep.lineal .refl sameSlots_putBody (fun s g h hr hg => hr.lineal_slots hg) hg
  · refine hstep.lineal .refl sameSlots_putBody (fun s g h hsort hg => ?_) hg
    obtain ⟨nodes, hperm, rfl⟩ := sortTopologically_ok hsort
    exact .of_keepsBodies .refl .trans (fun old new _ k => sameSlots_substituteOuter old new k)
      ⟨rfl, rfl⟩ (.of_subset hperm.subset)

/-- A run keeps the interface of a root. -/
theorem Run.sameInterface {count : Nat} (hr : Run .root g count h) (hg : TidyIn .root g)
    (hknown : g.Annotated) : SameInterface g h := by
  have htrans : ∀ {g h k : Graph}, (g.Annotated → SameInterface g h) →
      (h.Annotated → SameInterface h k) → g.Annotated → SameInterface g k := fun h₁ h₂ hknown =>
    (h₁ hknown).trans (h₂ ((h₁ hknown).annotated hknown))
  refine hr.of_steps (R := fun g h => g.Annotated → SameInterface g h) (fun g _ => .refl g) htrans
    (fun g h hg hstep => ?_) (fun g h hg hstep => ?_) hg hknown
  · cases hstep with
    | here step =>
        exact step.of_edits (R := fun g h => g.Annotated → SameInterface g h) (fun g _ => .refl g)
          htrans (fun he hg => he.sameInterface hg rfl) hg
    | inside => exact fun _ => ⟨by simp, by simp, fun _ _ => by simp⟩
  · cases hstep with
    | here step =>
        obtain ⟨nodes, -, rfl⟩ := sortTopologically_ok step
        exact fun _ => ⟨rfl, rfl, fun _ _ => rfl⟩
    | inside => exact fun _ => ⟨by simp, by simp, fun _ _ => by simp⟩

end Rewriting

/-! ## Copies -/

namespace Graph

theorem annotated_clone (g : Graph) : g.clone.Annotated := by
  rintro name ⟨-, hname⟩
  rw [inputs_clone, outputs_clone] at hname
  rw [get?_clone, if_pos hname]
  rfl

theorem holds_clone {g inner : Graph} {path : List (String × String)} (h : g.clone.Holds path inner) :
    ∃ outer, g.Holds path outer ∧ inner = outer.clone := by
  generalize hcopy : g.clone = copy at h
  induction h generalizing g with
  | here => exact ⟨g, .here, hcopy.symm⟩
  | @inside _ _ _ _ _ path host slot _ ih =>
      subst hcopy
      rw [nodes_clone] at host
      obtain ⟨n, hn, rfl⟩ := List.mem_map.1 host
      rw [Node.bodies_copied] at slot
      obtain ⟨⟨key, old⟩, hold, heq⟩ := List.mem_map.1 slot
      cases heq
      obtain ⟨outer, houter, heq⟩ := ih rfl
      have hinside : g.Holds ((n.name, key) :: path) outer := .inside hn hold houter
      exact ⟨outer, hinside, heq⟩

theorem lineal_slots_clone (g : Graph) : Lineal SameSlots g g.clone := by
  intro path inner hinner
  obtain ⟨outer, houter, rfl⟩ := holds_clone hinner
  exact ⟨outer, houter, by simp, by simp⟩

/-- What is known of declared values is the same on both sides of an interface. -/
theorem SameInterface.infoOf {g h : Graph} (hsame : SameInterface g h) {name : String}
    (hname : g.Declares name) : h.infoOf name = g.infoOf name := by
  unfold Graph.infoOf
  rw [hsame.entries name hname]

/-- In a valid graph without an input of the empty name no output has it either. -/
theorem IsValid.empty_not_mem_outputs {g : Graph} (h : g.IsValid) (hnamed : "" ∉ g.inputs) :
    "" ∉ g.outputs := by
  intro hout
  rcases h.scopedTree.here.yielded "" hout with hvisible | hdef
  · exact hvisible
  · rcases defines_iff.1 hdef with hin | hresult
    · exact hnamed hin
    · exact ne_empty_of_mem_results hresult rfl

end Graph

/-! ## Optimizing -/

namespace Optimizer

variable {environment : List (String × String)} {request : Request} {p : Pipeline} {g : Graph}

/-- Optimizing preserves the interface, unless an input has the empty name: the root has the same
inputs and outputs with the same element types and shapes, and every graph in its tree has the inputs
of the graph that it comes from, and as many output slots. -/
theorem optimize_interface {first : Optimized} (hkeyed : KeyedTree g) (hnamed : "" ∉ g.inputs)
    (hp : pipeline environment request = .ok p) (hpasses : ∀ pass ∈ p.passes, pass ∈ Pass.registry)
    (hfirst : (optimize environment request g).2 = .ok first) :
    first.graph.inputInfos = g.inputInfos ∧ first.graph.outputInfos = g.outputInfos ∧
      Lineal SameSlots g first.graph := by
  obtain ⟨hvalid, hnone, -, hgraph, -⟩ := optimize_ok hp hfirst
  have hg := (isValid_clone hvalid).tidyIn (keyedTree_clone hkeyed)
  obtain ⟨count, hrun⟩ : ∃ count, Rewriting.Run .root g.clone count (p.run g.clone).graph :=
    Pipeline.sweeps_runs hpasses p.limit p.limit _ hg rfl hnone
  rw [← hgraph] at hrun
  have hsame := hrun.sameInterface hg g.annotated_clone
  have hinfo : ∀ name, name ≠ "" → name ∈ g.inputs ∨ name ∈ g.outputs →
      first.graph.infoOf name = g.infoOf name := fun name hne hname =>
    (hsame.infoOf ⟨hne, by simpa using hname⟩).trans (infoOf_clone g name)
  refine ⟨?_, ?_, g.lineal_slots_clone.trans .trans (hrun.lineal_slots hg)⟩
  · unfold inputInfos
    rw [hsame.inputs, inputs_clone]
    exact List.map_congr_left fun name hname =>
      hinfo name (fun e => hnamed (e ▸ hname)) (.inl hname)
  · unfold outputInfos
    rw [hsame.outputs, outputs_clone]
    exact List.map_congr_left fun name hname =>
      hinfo name (fun e => hvalid.empty_not_mem_outputs hnamed (e ▸ hname)) (.inr hname)

theorem optimize_interface_choosing :
    KeyedTree (Pass.choosing [] "x") ∧ "" ∉ (Pass.choosing [] "x").inputs ∧ ∃ first,
      (optimize [] { passNames := some ["transpose", "identity"] } (Pass.choosing [] "x")).2 =
        .ok first ∧
      first.graph.walk.map Graph.outputs = [["x"], ["x"], ["picked"]] ∧
      first.graph.inputInfos = (Pass.choosing [] "x").inputInfos ∧
      first.graph.outputInfos = (Pass.choosing [] "x").outputInfos ∧
      Lineal SameSlots (Pass.choosing [] "x") first.graph := by
  obtain ⟨n, hp⟩ : ∃ n, pipeline [] { passNames := some ["transpose", "identity"] } =
      .ok ⟨[Pass.transpose, Pass.identity], n⟩ := ⟨_, rfl⟩
  have hresult : ((optimize [] { passNames := some ["transpose", "identity"] }
      (Pass.choosing [] "x")).2.map fun first => first.graph.walk.map Graph.outputs).toOption =
        some [["x"], ["x"], ["picked"]] := by
    decide +kernel
  cases hfirst : (optimize [] { passNames := some ["transpose", "identity"] }
      (Pass.choosing [] "x")).2 with
  | error cause => simp [hfirst, Except.map, Except.toOption] at hresult
  | ok first =>
      have hnamed : "" ∉ (Pass.choosing [] "x").inputs := by decide
      refine ⟨Pass.keyedTree_choosing, hnamed, first, rfl, ?_, optimize_interface
        Pass.keyedTree_choosing hnamed hp (by simp [Pass.registry]) hfirst⟩
      simpa [hfirst, Except.map, Except.toOption] using hresult

/-- A graph with an input of the empty name, and with a node that yields an absent value only. -/
def idling : Graph where
  inputs := ["", "x"]
  outputs := ["y"]
  infos := .ofList
    [{ name := "", dtype := some .float32, shape := some [some (.int 2), some (.int 3)] }]
  nodes := [
    { name := "idle", op := "Relu", inputs := ["x"], outputs := [""] },
    { name := "clip", op := "Relu", inputs := ["x"], outputs := ["y"] }]

/-- What is known of the input is lost with the node. -/
theorem not_optimize_interface :
    idling.IsValid ∧ KeyedTree idling ∧ idling.inputInfos =
        [{ name := "", dtype := some .float32, shape := some [some (.int 2), some (.int 3)] },
          { name := "x" }] ∧
      ((optimize [] { passNames := some ["dead-nodes"] } idling).2.map fun first =>
        first.graph.inputInfos).toOption = some [{ name := "" }, { name := "x" }] := by
  have hvalid : idling.IsValid := by
    unfold IsValid
    decide +kernel
  have hkeyed : KeyedTree idling :=
    .intro (by simp [idling, Node.Keyed]) (by simp [idling, Node.bodies])
  exact ⟨hvalid, hkeyed, by decide +kernel, by decide +kernel⟩

end Optimizer

end TensorGraph
