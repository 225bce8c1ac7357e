import TensorGraph.Proofs.Solutions

/-!
# Runs in lockstep

Two graphs whose nodes stand at the same places and depend on each other alike are run in the same
order. If each node of the one yields what its partner yields wherever the same values are bound, be
it under other names, then the same values are bound after every step, and both graphs yield the
same in the end.

## Main results

* `Evaluation.run_lockstep` -- graphs whose nodes yield the same step by step yield the same.
-/

namespace TensorGraph

/-- Entries of related lists at one place are related. -/
theorem rel_getElem? {α β : Type} {R : α → β → Prop} {l : List α} {l' : List β}
    (h : List.Forall₂ R l l') (i : Nat) : Option.Rel R l[i]? l'[i]? := by
  induction h generalizing i with
  | nil => exact .none
  | cons hab _ ih =>
      cases i with
      | zero => exact .some hab
      | succ i => simpa using ih i

namespace Evaluation

variable {V : Type} {τ : String → String}

/-! ## The same values under other names -/

/-- Whether every name has in one environment the value that its new name has in the other. -/
def Transported (τ : String → String) (env env' : Environment V) : Prop :=
  ∀ name, lookup? env' (τ name) = lookup? env name

/-- Whether two bindings bind the same values, the one to names with a property and the other to
their new names. -/
structure Alike (τ : String → String) (P : String → Prop) (b b' : Bindings V) : Prop where
  lookup : ∀ name, b'.lookup (τ name) = b.lookup name
  only : ∀ name, (b.lookup name).isSome = true → P name

theorem Transported.cons {env env' : Environment V} (h : Transported τ env env') {P : String → Prop}
    {b b' : Bindings V} (hb : Alike τ P b b') :
    Transported τ (b :: env) (b' :: env') := fun name => by
  rw [lookup?_cons, lookup?_cons, hb.lookup, h]

/-- Bindings stay alike when a value is bound to a name in both. -/
theorem Alike.cons (hτ : Function.Injective τ) {P : String → Prop} {b b' : Bindings V}
    (hb : Alike τ P b b') {name : String} (hname : P name) (value : V) :
    Alike τ P ((name, value) :: b) ((τ name, value) :: b') where
  lookup other := by
    by_cases heq : other = name
    · rw [heq, List.lookup_cons_self, List.lookup_cons_self]
    · rw [lookup_cons_of_ne heq, lookup_cons_of_ne fun e => heq (hτ e), hb.lookup]
  only other hother := by
    by_cases heq : other = name
    · exact heq ▸ hname
    · rw [lookup_cons_of_ne heq] at hother
      exact hb.only other hother

section Binding

variable (hτ : Function.Injective τ) {P : String → Prop} {b b' : Bindings V}
include hτ

theorem bindInputs_alike {g h : Graph} {feeds feeds' : String → Option V} {inputs : List String}
    (hfeeds : ∀ name ∈ inputs, feeds' (τ name) = feeds name) (hinputs : ∀ name ∈ inputs, P name)
    (hb : Alike τ P b b') :
    Option.Rel (Alike τ P) (bindInputs g feeds inputs b).toOption
      (bindInputs h feeds' (inputs.map τ) b').toOption := by
  induction inputs generalizing b b' with
  | nil => exact .some hb
  | cons input rest ih =>
      obtain ⟨hfeed, hfeeds⟩ := List.forall_mem_cons.1 hfeeds
      obtain ⟨hinput, hinputs⟩ := List.forall_mem_cons.1 hinputs
      rw [List.map_cons, bindInputs, bindInputs, hfeed]
      cases feeds input with
      | none => exact .none
      | some value => exact ih hfeeds hinputs (hb.cons hτ hinput value)

theorem bindOutputs_alike (hempty : ∀ name, τ name = "" ↔ name = "") (n k : Node)
    {outputs : List String} (values : List V)
    (houtputs : ∀ name ∈ outputs, name ≠ "" → P name) (hb : Alike τ P b b') :
    Option.Rel (Alike τ P) (bindOutputs n outputs values b).toOption
      (bindOutputs k (outputs.map τ) values b').toOption := by
  induction outputs generalizing values b b' with
  | nil => exact .some hb
  | cons output rest ih =>
      obtain ⟨houtput, houtputs⟩ := List.forall_mem_cons.1 houtputs
      rw [List.map_cons]
      unfold bindOutputs
      simp only [hempty]
      split
      · exact ih _ houtputs hb
      · rename_i hne
        cases values with
        | nil => exact .none
        | cons value others => exact ih others houtputs (hb.cons hτ (houtput hne) value)

end Binding

/-! ## Step by step -/

variable [Operand V] {m : Machine V} {g h : Graph} {outer outer' : Environment V}

/-- Two bodies of which the one yields in its environment what the other yields in another one,
whatever a node of an operator asks them for. -/
structure AgreeingBody (op : String) (env env' : Environment V) (body body' : Body V) : Prop where
  key : body'.key = body.key
  outputs : body'.graph.outputs.length = body.graph.outputs.length
  round : op = "Loop" → body.key = "body" → ∀ iteration condition carried,
    (body'.meaning env' (loopFeeds body'.graph.inputs iteration condition carried)).toOption =
      (body.meaning env (loopFeeds body.graph.inputs iteration condition carried)).toOption
  branch : op = "If" →
    (body'.meaning env' Operand.unfed).toOption = (body.meaning env Operand.unfed).toOption

/-- Nodes of one kind that read the same values yield the same values if their bodies agree. -/
theorem runNode_agrees {env env' : Environment V} {bodies bodies' : List (Body V)} {n n' : Node}
    (hname : n'.name = n.name) (hop : n'.op = n.op)
    (hcompute : ∀ operands, (m.compute n' operands).toOption = (m.compute n operands).toOption)
    (hinputs : List.Forall₂ (SameValue env env') n.inputs n'.inputs)
    (hbodies : List.Forall₂ (AgreeingBody n.op env env') bodies bodies') :
    (runNode m n' bodies' env').toOption = (runNode m n bodies env).toOption := by
  have hthere : List.Forall₂ (AnsweringBody n.op env env') bodies bodies' :=
    hbodies.imp fun body body' hbody => ⟨hbody.key, hbody.outputs,
      fun hloop hkey _ _ _ => .of_toOption (hbody.round hloop hkey _ _ _),
      fun hif => .of_toOption (hbody.branch hif)⟩
  have hback : List.Forall₂ (AnsweringBody n'.op env' env) bodies' bodies :=
    (hbodies.imp fun body body' hbody => ⟨hbody.key.symm, hbody.outputs.symm,
      fun hloop hkey _ _ _ => .of_toOption
        (hbody.round (hop ▸ hloop) (hbody.key ▸ hkey) _ _ _).symm,
      fun hif => .of_toOption (hbody.branch (hop ▸ hif)).symm⟩ : List.Forall₂ (fun body body' =>
        AnsweringBody n'.op env' env body' body) bodies bodies').flip
  exact (runNode_answers hname hop (fun operands => .of_toOption (hcompute operands)) hinputs
    hthere).toOption_eq (runNode_answers hname.symm hop.symm
      (fun operands => .of_toOption (hcompute operands).symm)
      (hinputs.imp fun _ _ => SameValue.symm).flip hback)

/-- Whether a node yields under new names what its partner yields, wherever the same values are
bound, to names that a graph defines. -/
def Follows (m : Machine V) (τ : String → String) (g : Graph) (outer outer' : Environment V)
    (n k : Node) : Prop :=
  k.outputs = n.outputs.map τ ∧ ∀ b b', Alike τ (g.defines · = true) b b' →
    (runNode m k (bodiesOf m k) (b' :: outer')).toOption =
      (runNode m n (bodiesOf m n) (b :: outer)).toOption

variable (hτ : Function.Injective τ) (hempty : ∀ name, τ name = "" ↔ name = "")
include hτ hempty

private theorem runNodes_alike {nodes nodes' : List Node} {b b' : Bindings V}
    (hnodes : List.Forall₂ (Follows m τ g outer outer') nodes nodes')
    (hsub : ∀ n ∈ nodes, n ∈ g.nodes) (hb : Alike τ (g.defines · = true) b b') :
    Option.Rel (Alike τ (g.defines · = true)) (runNodes m outer nodes b).toOption
      (runNodes m outer' nodes' b').toOption := by
  induction hnodes generalizing b b' with
  | nil => exact .some hb
  | @cons n k rest rest' hfollows _ ih =>
      obtain ⟨hmem, hsub⟩ := List.forall_mem_cons.1 hsub
      have hdefines : ∀ name ∈ n.outputs, name ≠ "" → g.defines name = true := fun name hname hne =>
        Graph.defines_iff.2 (.inr (Graph.mem_results.2 ⟨n, hmem, Node.mem_results.2 ⟨hname, hne⟩⟩))
      unfold runNodes at ih ⊢
      simp only [List.foldlM_cons, toOption_bind, hfollows.1, hfollows.2 b b' hb]
      cases (runNode m n (bodiesOf m n) (b :: outer)).toOption with
      | none => exact .none
      | some values =>
          have hbound := bindOutputs_alike hτ hempty n k values hdefines hb
          simp only [Option.bind_some]
          revert hbound
          generalize (bindOutputs n n.outputs values b).toOption = bound
          generalize (bindOutputs k (n.outputs.map τ) values b').toOption = bound'
          rintro (⟨hbound⟩ | -)
          · exact ih hsub hbound
          · exact .none

omit [Operand V] hτ hempty in
private theorem forall₂_nodesAt {R : Node → Node → Prop} (hnodes : List.Forall₂ R g.nodes h.nodes)
    (places : List Nat) : List.Forall₂ R (g.nodesAt places) (h.nodesAt places) := by
  induction places with
  | nil => exact .nil
  | cons place rest ih =>
      have hplace := rel_getElem? hnodes place
      unfold Graph.nodesAt at ih ⊢
      rw [List.filterMap_cons, List.filterMap_cons]
      revert hplace
      generalize g.nodes[place]? = found
      generalize h.nodes[place]? = found'
      rintro (⟨hnode⟩ | -)
      · exact .cons hnode ih
      · exact ih

/-- Graphs of the same order whose nodes yield the same, step by step and under other names, yield
the same. -/
theorem run_lockstep {feeds feeds' : String → Option V} (hinputs : h.inputs = g.inputs.map τ)
    (houtputs : h.outputs = g.outputs.map τ)
    (horder : h.topologicalOrder.toOption = g.topologicalOrder.toOption)
    (houter : Transported τ outer outer') (hfeeds : ∀ name ∈ g.inputs, feeds' (τ name) = feeds name)
    (hnodes : List.Forall₂ (Follows m τ g outer outer') g.nodes h.nodes) :
    (run m h outer' feeds').toOption = (run m g outer feeds).toOption := by
  have hbare : Alike τ (g.defines · = true) ([] : Bindings V) [] := ⟨fun _ => rfl, by simp⟩
  have hbound := bindInputs_alike hτ (g := g) (h := h) hfeeds
    (fun name hname => Graph.defines_iff.2 (.inl hname)) hbare
  rw [run_eq_runNodes, run_eq_runNodes, hinputs]
  simp only [toOption_bind, horder]
  revert hbound
  generalize (bindInputs g feeds g.inputs []).toOption = bound
  generalize (bindInputs h feeds' (g.inputs.map τ) []).toOption = bound'
  rintro (@⟨b, b', hb⟩ | -)
  · simp only [Option.bind_some]
    refine Option.bind_congr fun order horder => ?_
    have hplaces := forall₂_nodesAt hnodes order
    have hsub : ∀ n ∈ g.nodesAt order, n ∈ g.nodes := by
      intro n hn
      obtain ⟨place, -, hplace⟩ := List.mem_filterMap.1 hn
      exact List.mem_of_getElem? hplace
    have hlast := runNodes_alike hτ hempty hplaces hsub hb
    revert hlast
    generalize (runNodes m outer (g.nodesAt order) b).toOption = last
    generalize (runNodes m outer' (h.nodesAt order) b').toOption = last'
    rintro (@⟨c, c', hc⟩ | -)
    · simp only [Option.bind_some, toOption_mapM, toOption_lookup, houtputs]
      exact mapM_eq_of_forall₂ (List.forall₂_map_right_iff.2
        (List.forall₂_same.2 fun name _ => houter.cons hc name))
    · rfl
  · rfl

end Evaluation

end TensorGraph
