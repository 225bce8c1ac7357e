import TensorGraph.Proofs.Merging
import TensorGraph.Proofs.Solutions

/-!
# Graphs with the same meaning

A graph may be replaced by another one when both do the same wherever everything is bound that the
first one takes from outside. Then the second may take its place as a body too, whatever the node
that owns it does with the body and however often it is run.

The kernels of a machine are only known to look at operators and attributes. What is shown here holds
for all of them.

## Main results

* `Evaluation.Machine.standard_regular` -- the kernels of this library look at nothing else.
* `Evaluation.run_substituteOuter` -- a substitution amounts to another environment.
* `Evaluation.SameMeaning.putBody` -- a body may be replaced by one of the same meaning.
* `Evaluation.sameMeaning_of_merged` -- merging the two values of an identity changes nothing.
-/

namespace TensorGraph

/-! ## What kernels look at -/

/-- The attributes of a node with nothing but the keys of its bodies. -/
def Node.parameters (n : Node) : List (String × Option Attribute) :=
  n.attributes.map fun (key, value) => (key, if value.body?.isSome then none else some value)

namespace Node

variable {n : Node}

@[simp] theorem parameters_replaceReads (old new : String) (n : Node) :
    (n.replaceReads old new).parameters = n.parameters := by
  by_cases hread : old ∈ n.reads
  · rw [replaceReads_of_mem hread, parameters, parameters, List.map_map]
    refine List.map_congr_left fun entry _ => ?_
    obtain ⟨key, value⟩ := entry
    cases value <;> rfl
  · rw [replaceReads_of_not_mem new hread]

@[simp] theorem parameters_merged (drop keep : String) (n : Node) :
    (n.merged drop keep).parameters = n.parameters := by
  rw [merged, parameters_replaceReads, parameters, attributes_renamed, parameters]

theorem parameters_rebodied (hn : n.Keyed) {key : String} {old : Graph}
    (hold : (key, old) ∈ n.bodies) (new : Graph) :
    (n.rebodied key new).parameters = n.parameters := by
  unfold parameters rebodied
  rw [List.map_map]
  refine List.map_congr_left fun entry hentry => ?_
  obtain ⟨first, value⟩ := entry
  by_cases hkey : first = key
  · subst hkey
    have hvalue : (first, value) = (first, Attribute.body old) :=
      List.inj_on_of_nodup_map hn hentry (mem_bodies.1 hold) rfl
    simp [(Prod.mk.inj hvalue).2, Attribute.body?]
  · simp [hkey]

/-- The attribute under a key, if it is no body. -/
private theorem parameter?_eq (n : Node) (key : String) :
    (n.parameters.lookup key).join =
      (n.attribute? key).bind fun value => if value.body?.isSome then none else some value := by
  unfold parameters attribute?
  induction n.attributes with
  | nil => rfl
  | cons entry rest ih =>
      obtain ⟨first, value⟩ := entry
      rw [List.map_cons, List.lookup_cons, List.lookup_cons]
      cases key == first
      · exact ih
      · rfl

private theorem number?_eq (n : Node) (key : String) :
    n.number? key = (n.parameters.lookup key).join.bind fun
      | .number x => some x
      | _ => none := by
  rw [parameter?_eq, number?]
  cases n.attribute? key with
  | none => rfl
  | some value => cases value <;> rfl

private theorem numbers?_eq (n : Node) (key : String) :
    n.numbers? key = (n.parameters.lookup key).join.bind fun
      | .numbers xs => some xs
      | _ => none := by
  rw [parameter?_eq, numbers?]
  cases n.attribute? key with
  | none => rfl
  | some value => cases value <;> rfl

private theorem literal?_eq (n : Node) (key : String) :
    n.literal? key = (n.parameters.lookup key).join.bind fun
      | .literal value => some value
      | _ => none := by
  rw [parameter?_eq, literal?]
  cases n.attribute? key with
  | none => rfl
  | some value => cases value <;> rfl

theorem numbers?_rebodied (hn : n.Keyed) {key : String} {old : Graph} (hold : (key, old) ∈ n.bodies)
    (new : Graph) (name : String) : (n.rebodied key new).numbers? name = n.numbers? name := by
  rw [numbers?_eq, numbers?_eq, parameters_rebodied hn hold]

end Node

namespace Evaluation

open TensorGraph.Graph

variable {V : Type}

section Regular

variable [Operand V] {m : Machine V}

/-- A machine that hands on what an identity takes in, and whose other kernels are functions of the
attributes, bodies apart, and of the operands. -/
structure Machine.Regular (m : Machine V) : Prop where
  functional : ∀ n k : Node, k.name = n.name → k.op = n.op → k.parameters = n.parameters →
    ∀ operands, (m.compute k operands).toOption = (m.compute n operands).toOption
  identity : ∀ n : Node, n.op = "Identity" → ∀ value, m.compute n [value] = .ok [value]

/-- The kernels of this library look at nothing else than the name, the operator and the
attributes, bodies apart. -/
theorem Machine.standard_regular (budget : Nat) : (Machine.standard budget : Machine V).Regular where
  functional n k hname hop hparameters operands := by
    have hkernel : kernel k operands = kernel n operands := by
      simp only [kernel, namedKernel, operand, reductionOptions, reductionAxes, Node.number?_eq,
        Node.numbers?_eq, Node.literal?_eq, hname, hop, hparameters]
    exact congrArg Except.toOption hkernel
  identity n hop value := by
    have hunary : unaryKernels.lookup "Identity" = none := by decide
    have hfold : foldKernels.lookup "Identity" = none := by decide
    simp only [standard, kernel, namedKernel, hop, hunary, hfold]
    rfl

/-- What an identity yields. -/
theorem runNode_identity (hm : m.Regular) {n : Node} (hop : n.op = "Identity") {input : String}
    (hin : n.inputs = [input]) (hne : input ≠ "") (bodies : List (Body V)) (env : Environment V) :
    (runNode m n bodies env).toOption = (lookup? env input).map fun value => [value] := by
  have hloop : ("Identity" : String) ≠ "Loop" := by decide
  have hif : ("Identity" : String) ≠ "If" := by decide
  unfold runNode
  rw [toOption_bind, toOption_mapM]
  simp only [hin, hop, hloop, hif, if_false, toOption_lookup]
  have hpresent : [input].filter (· != "") = [input] := by simp [hne]
  rw [hpresent]
  cases hvalue : lookup? env input with
  | none => simp [hvalue]
  | some value => simp [hvalue, hm.identity n hop]

end Regular

/-! ## Substitutions -/

/-- Whether a name has in one environment the value that `new`, for `old`, or else the name itself
has in another. -/
def Renames (old new : String) (env env' : Environment V) : Prop :=
  ∀ name, name ≠ "" → lookup? env' (substituteName old new name) = lookup? env name

private theorem sameValue_substituteName {old new : String} {env env' : Environment V}
    (h : Renames old new env env') (hold : old ≠ "") (hnew : new ≠ "") (name : String) :
    SameValue env env' name (substituteName old new name) := by
  refine ⟨?_, h name⟩
  rw [substituteName_eq]
  split
  · rename_i heq
    exact ⟨fun e => absurd e hnew, fun e => absurd (heq ▸ e) hold⟩
  · exact Iff.rfl

/-- Bindings of other names in front of two environments leave a renaming between them alone. -/
theorem Renames.cons {old new : String} {env env' : Environment V} (h : Renames old new env env')
    {b : Bindings V} (hold : b.lookup old = none) (hnew : b.lookup new = none) :
    Renames old new (b :: env) (b :: env') := by
  intro name hne
  have hsame : b.lookup (substituteName old new name) = b.lookup name := by
    rw [substituteName_eq]
    split
    · rename_i heq
      rw [heq, hold, hnew]
    · rfl
  rw [lookup?_cons, lookup?_cons, hsame, h name hne]

variable [Operand V] {m : Machine V}

/-- A node after a substitution yields what it did in the other environment, if its bodies do. -/
theorem runNode_replaceReads (hm : m.Regular) {n : Node} {old new : String} (hnew : new ≠ "")
    {env env' : Environment V} (h : Renames old new env env')
    (hlocal : ∀ body ∈ n.bodies, Local body.2 (run m body.2))
    (hbodies : old ∈ n.reads → ∀ body ∈ n.bodies, ∀ feeds,
      (run m (body.2.substituteOuter old new) env' feeds).toOption =
        (run m body.2 env feeds).toOption) :
    (runNode m (n.replaceReads old new) (bodiesOf m (n.replaceReads old new)) env').toOption =
      (runNode m n (bodiesOf m n) env).toOption := by
  by_cases hread : old ∈ n.reads
  · have hold := Node.ne_empty_of_mem_reads hread
    refine runNode_congr ⟨by simp, by simp, hm.functional _ _ (by simp) (by simp) (by simp), ?_, ?_⟩
    · rw [Node.replaceReads_of_mem hread, List.forall₂_map_right_iff]
      exact List.forall₂_same.2 fun name _ => sameValue_substituteName h hold hnew name
    · unfold bodiesOf
      rw [Node.bodies_replaceReads, if_pos hread, List.map_map, List.forall₂_map_left_iff,
        List.forall₂_map_right_iff]
      exact List.forall₂_same.2 fun body hbody => ⟨rfl, by simp, by simp, hbodies hread body hbody⟩
  · rw [Node.replaceReads_of_not_mem new hread]
    refine runNode_of_agree hlocal fun name hname => ?_
    have hne : name ≠ old := fun e => hread (e ▸ hname)
    rw [← h name (Node.ne_empty_of_mem_reads hname), substituteName_eq, if_neg hne]

/-- A graph in which one name that it takes from outside is replaced by another does what it did in
an environment where the names are exchanged likewise. -/
theorem run_substituteOuter (hm : m.Regular) {visible : String → Prop} {g : Graph}
    (hg : WellformedTree visible g) {old new : String} (hold : visible old) (hnew : visible new)
    {env env' : Environment V} (h : Renames old new env env') (feeds : String → Option V) :
    (run m (g.substituteOuter old new) env' feeds).toOption = (run m g env feeds).toOption := by
  induction hg generalizing env env' feeds with
  | @intro visible g here inside ih =>
      have htree : WellformedTree visible g := .intro here inside
      have hundefined {name : String} (hname : visible name) : g.defines name = false := by
        rw [Bool.eq_false_iff, ne_eq, defines_iff, not_or]
        exact ⟨fun hin => here.newInputs name hin hname, fun hout => here.newResults name hout hname⟩
      have hdef := hundefined hold
      have hpresent : new ≠ "" := fun e => here.unseen (e ▸ hnew)
      have hcons {b : Bindings V} (hb : Binds g b) : Renames old new (b :: env) (b :: env') := by
        have hnone {name : String} (hname : visible name) : b.lookup name = none := by
          have := hb name
          rw [hundefined hname] at this
          simpa using this
        exact h.cons (hnone hold) (hnone hnew)
      refine run_congr htree (WellformedTree.substituteOuter htree hnew) (by simp) (by simp)
        (fun b hb => ?_) fun b hb => ?_
      · rw [nodes_substituteOuter, hdef, if_neg Bool.false_ne_true, List.forall₂_map_right_iff]
        refine List.forall₂_same.2 fun n hn => ⟨by simp, ?_⟩
        exact runNode_replaceReads hm hpresent (hcons hb)
          (fun body hbody => run_local (inside n hn body hbody))
          fun _ body hbody feeds => ih n hn body hbody (.inl hold) (.inl hnew) (hcons hb) feeds
      · rw [substituteOuter_eq, hdef, if_neg Bool.false_ne_true, List.forall₂_map_right_iff]
        exact List.forall₂_same.2 fun name hname =>
          hcons hb name (here.ne_empty_of_mem_outputs hname)

/-! ## Meanings -/

/-- Whether everything is bound that a graph takes from outside. -/
def Bound (g : Graph) (env : Environment V) : Prop :=
  ∀ name ∈ g.outerReferences, (lookup? env name).isSome = true

omit [Operand V] in
/-- What a graph uses is bound in its solutions and around them. -/
theorem isSome_lookup?_of_uses {g : Graph} {b : Bindings V} {env : Environment V}
    (hb : Binds g b) (hbound : Bound g env) {name : String} (hused : g.Uses name) :
    (lookup? (b :: env) name).isSome = true := by
  rw [lookup?_cons, Option.isSome_or, hb name]
  cases hdef : g.defines name with
  | true => rfl
  | false => exact hbound name (mem_outerReferences_iff.2 ⟨hdef, hused⟩)

/-- Two graphs of one interface, of which the second takes no more from outside and does the same
wherever everything is bound that the first one takes from there. -/
structure SameMeaning (m : Machine V) (g h : Graph) : Prop where
  inputs : h.inputs = g.inputs
  outputs : h.outputs.length = g.outputs.length
  outer : h.outerReferences ⊆ g.outerReferences
  run : ∀ env feeds, Bound g env →
    (Evaluation.run m h env feeds).toOption = (Evaluation.run m g env feeds).toOption

namespace SameMeaning

variable {visible : String → Prop} {g h k : Graph}

theorem refl (m : Machine V) (g : Graph) : SameMeaning m g g :=
  ⟨rfl, rfl, fun _ => id, fun _ _ _ => rfl⟩

theorem trans (h₁ : SameMeaning m g h) (h₂ : SameMeaning m h k) : SameMeaning m g k where
  inputs := h₂.inputs.trans h₁.inputs
  outputs := h₂.outputs.trans h₁.outputs
  outer _ hname := h₁.outer (h₂.outer hname)
  run env feeds hbound :=
    (h₂.run env feeds fun name hname => hbound name (h₁.outer hname)).trans (h₁.run env feeds hbound)

theorem arity (hs : SameMeaning m g h) : h.arity = g.arity := by
  rw [Graph.arity, Graph.arity, hs.inputs, hs.outputs]

/-- A root takes nothing from outside, so roots of the same meaning are executed alike. -/
theorem execute_iff (hs : SameMeaning m g h) (hg : WellformedTree (fun _ => False) g)
    (houtputs : h.outputs = g.outputs) (feeds : Bindings V) (outputs : List (String × V)) :
    execute m h feeds = .ok outputs ↔ execute m g feeds = .ok outputs := by
  have hbound : Bound g ([] : Environment V) := fun name hname =>
    (hg.visible_of_mem_outerReferences hname).elim
  unfold execute
  rw [← toOption_eq_some, ← toOption_eq_some, toOption_bind, toOption_bind, hs.run [] _ hbound,
    houtputs]

end SameMeaning

/-- Lists that differ in one entry are related when the entries are. -/
theorem forall₂_set {α : Type} {R : α → α → Prop} {l : List α} (hrefl : ∀ a ∈ l, R a a)
    {i : Nat} {a b : α} (ha : l[i]? = some a) (hab : R a b) : List.Forall₂ R l (l.set i b) := by
  induction l generalizing i with
  | nil => simp at ha
  | cons first rest ih =>
      obtain ⟨hfirst, hrest⟩ := List.forall_mem_cons.1 hrefl
      cases i with
      | zero =>
          obtain rfl : first = a := by simpa using ha
          exact .cons hab (List.forall₂_same.2 hrest)
      | succ i => exact .cons hfirst (ih hrest (by simpa using ha))

/-- A node yields the same when one of its bodies is replaced by one of the same interface that does
the same. -/
theorem yieldSame_rebodied (hm : m.Regular) {n : Node} (hn : n.Keyed) {key : String}
    {old new : Graph} (hold : (key, old) ∈ n.bodies) (hinputs : new.inputs = old.inputs)
    (houtputs : new.outputs.length = old.outputs.length) {env : Environment V}
    (hrun : ∀ feeds, (run m new env feeds).toOption = (run m old env feeds).toOption) :
    YieldSame m env env n (n.rebodied key new) := by
  refine ⟨rfl, runNode_congr ⟨rfl, rfl,
    hm.functional _ _ rfl rfl (Node.parameters_rebodied hn hold new), ?_, ?_⟩⟩
  · exact List.forall₂_same.2 fun _ _ => ⟨Iff.rfl, fun _ => rfl⟩
  · obtain ⟨before, after, hbefore, hafter, -⟩ := Node.bodies_rebodied hn hold new
    have hsame (bodies : List (String × Graph)) : List.Forall₂ (SameBody env env)
        (bodies.map fun body => { key := body.1, graph := body.2, meaning := Evaluation.run m body.2 })
        (bodies.map fun body => { key := body.1, graph := body.2, meaning := Evaluation.run m body.2 }) :=
      List.forall₂_same.2 fun _ _ => ⟨rfl, rfl, rfl, fun _ => rfl⟩
    unfold bodiesOf
    rw [hbefore, hafter, List.map_append, List.map_append, List.map_cons, List.map_cons]
    exact List.rel_append (hsame before) (.cons ⟨rfl, hinputs, houtputs, hrun⟩ (hsame after))

/-- All nodes of a graph yield the same when one of them gets a body that does the same. -/
theorem yieldSame_putBody (hm : m.Regular) {g : Graph} (hkeyed : ∀ n ∈ g.nodes, n.Keyed) {place : Nat}
    {key : String} {old new : Graph} (hbody : g.HasBody place key old)
    (hinputs : new.inputs = old.inputs) (houtputs : new.outputs.length = old.outputs.length)
    {env : Environment V}
    (hrun : ∀ feeds, (run m new env feeds).toOption = (run m old env feeds).toOption) :
    List.Forall₂ (YieldSame m env env) g.nodes (g.putBody place key new).nodes := by
  obtain ⟨n, hn, hold⟩ := hbody
  rw [putBody_eq hn, putNode]
  exact forall₂_set (fun _ _ => ⟨rfl, rfl⟩) hn
    (yieldSame_rebodied hm (hkeyed n (List.mem_of_getElem? hn)) hold hinputs houtputs hrun)

/-- A body may be replaced by one of the same meaning. -/
theorem SameMeaning.putBody (hm : m.Regular) {visible : String → Prop} {g : Graph}
    (hg : WellformedTree visible g) {place : Nat} {key : String} {old new : Graph}
    (hbody : g.HasBody place key old) (hnew : WellformedTree (g.seenIn visible) new)
    (hs : SameMeaning m old new) : SameMeaning m g (g.putBody place key new) := by
  have hput := WellformedTree.putBody hg hbody hnew hs.arity hs.outer
  refine ⟨by simp, by simp, outerReferences_putBody hg.here.keyed hbody hs.outer,
    fun env feeds hbound => ?_⟩
  refine run_congr hg hput (by simp) (by simp) (fun b hb => ?_) fun b _ => ?_
  · refine yieldSame_putBody hm hg.here.keyed hbody hs.inputs hs.outputs fun feeds =>
      hs.run _ feeds fun name hname => ?_
    obtain ⟨n, hn, hold⟩ := hbody
    exact isSome_lookup?_of_uses hb hbound
      (.inr ⟨n, List.mem_of_getElem? hn, Node.mem_reads.2 (.inr ⟨_, hold, hname⟩)⟩)
  · rw [outputs_putBody]
    exact List.forall₂_same.2 fun _ _ => rfl

/-! ## Merged values -/

/-- Bindings of which the second ones know the value of `drop` by the name `keep`. -/
structure Joined (outer : Environment V) (drop keep : String) (b b' : Bindings V) : Prop where
  same : ∀ name, name ≠ drop → b'.lookup name = b.lookup name
  bound : drop ≠ "" → (b.lookup drop).isSome = true
  kept : drop ≠ "" → b.lookup drop = lookup? (b' :: outer) keep

section Merged

variable {visible : String → Prop} {g h : Graph} {place : Nat} {n : Node} {drop keep : String}
  {outer : Environment V} {feeds : String → Option V} {b b' : Bindings V}

omit [Operand V] in
theorem Joined.renames (hj : Joined outer drop keep b b') :
    Renames drop keep (b :: outer) (b' :: outer) := by
  intro name hne
  rw [substituteName_eq]
  split
  · rename_i hdrop
    subst hdrop
    rw [← hj.kept hne, lookup?_cons]
    obtain ⟨value, hvalue⟩ := Option.isSome_iff_exists.1 (hj.bound hne)
    rw [hvalue, Option.some_or]
  · rename_i hother
    rw [lookup?_cons, lookup?_cons, hj.same name hother]

omit [Operand V] in
/-- A node yields into joined bindings what it yielded before, by the names that it has got. -/
theorem Joined.yields (hj : Joined outer drop keep b b') (hkeep : keep ≠ "") {k : Node}
    (hbound : drop ∈ k.results → (b'.lookup keep).isSome = true) {values : List V} :
    Yields (k.merged drop keep).outputs values b' ↔ Yields k.outputs values b := by
  have hother {name : String} (hname : name ≠ drop) : b'.lookup name = b.lookup name :=
    hj.same name hname
  by_cases hdrop : drop ∈ k.results
  · have hne := Node.ne_empty_of_mem_results hdrop
    have hvalue : b'.lookup keep = b.lookup drop := by
      obtain ⟨value, hvalue⟩ := Option.isSome_iff_exists.1 (hbound hdrop)
      rw [hj.kept hne, lookup?_cons, hvalue, Option.some_or]
    rw [Node.merged, Node.outputs_replaceReads, Node.outputs_renamed hne]
    refine yields_map fun name _ => ?_
    rw [substituteName_eq]
    split
    · rename_i heq
      exact ⟨⟨fun e => absurd e hkeep, fun e => absurd (heq ▸ e) hne⟩, fun _ => heq ▸ hvalue⟩
    · rename_i heq
      exact ⟨Iff.rfl, fun _ => hother heq⟩
  · rw [Node.merged, Node.outputs_replaceReads, Node.renamed, if_neg hdrop]
    conv_lhs => rw [← List.map_id k.outputs]
    refine yields_map fun name hname => ⟨Iff.rfl, fun hne => hother ?_⟩
    exact fun e => hdrop (Node.mem_results.2 ⟨e ▸ hname, e ▸ hne⟩)

/-- A node that stays computes from joined bindings what it computed before. -/
theorem runNode_merged (hm : m.Regular) (hg : WellformedTree visible g)
    (hmerged : Merged g place n drop keep h) (hj : Joined outer drop keep b b') {k : Node}
    (hk : k ∈ g.nodes) :
    (runNode m (k.merged drop keep) (bodiesOf m (k.merged drop keep)) (b' :: outer)).toOption =
      (runNode m k (bodiesOf m k) (b :: outer)).toOption := by
  have hbodies : bodiesOf m (k.renamed drop keep) = bodiesOf m k := by
    unfold bodiesOf
    rw [Node.bodies_renamed]
  have hrenamed : (runNode m (k.renamed drop keep) (bodiesOf m (k.renamed drop keep))
      (b :: outer)).toOption = (runNode m k (bodiesOf m k) (b :: outer)).toOption := by
    refine runNode_congr ⟨by simp, by simp, hm.functional _ _ (by simp) (by simp) ?_, ?_, ?_⟩
    · rw [Node.parameters, Node.attributes_renamed, Node.parameters]
    · rw [Node.inputs_renamed]
      exact List.forall₂_same.2 fun _ _ => ⟨Iff.rfl, fun _ => rfl⟩
    · rw [hbodies]
      exact List.forall₂_same.2 fun _ _ => ⟨rfl, rfl, rfl, fun _ => rfl⟩
  have hkeep : g.seenIn visible keep :=
    hmerged.defines_or_uses_keep.elim .inr (WellformedTree.seenIn_of_uses hg)
  rw [← hrenamed]
  refine runNode_replaceReads hm hmerged.present hj.renames (fun body hbody => ?_)
    fun hread body hbody feeds => ?_
  · exact run_local (hg.body hk (Node.bodies_renamed ▸ hbody))
  · rw [Node.reads_renamed] at hread
    exact run_substituteOuter hm (hg.body hk (Node.bodies_renamed ▸ hbody))
      (WellformedTree.seenIn_of_uses hg (.inr ⟨k, hk, hread⟩)) hkeep hj.renames feeds

/-- In a solution both values of an identity are the same. -/
private theorem Solves.lookup?_keep (hm : m.Regular) (hmerged : Merged g place n drop keep h)
    (hb : Solves m g outer feeds b) (hne : drop ≠ "") :
    lookup? (b :: outer) keep = b.lookup drop := by
  obtain ⟨values, hvalues, hyields⟩ := hb.computed n hmerged.mem_node
  rw [← toOption_eq_some] at hvalues
  obtain ⟨bound, hbound⟩ := Option.isSome_iff_exists.1
    ((hb.isSome_lookup drop).trans (hmerged.defines_drop hne))
  rcases hmerged.ends with ⟨hin, hout⟩ | ⟨hin, hout, -⟩
  · rw [runNode_identity hm hmerged.op hin hmerged.present] at hvalues
    obtain ⟨value, hvalue, rfl⟩ := Option.map_eq_some_iff.1 hvalues
    rw [hout, yields_cons_cons hne] at hyields
    rw [hvalue, hyields.1]
  · rw [runNode_identity hm hmerged.op hin hne] at hvalues
    obtain ⟨value, hvalue, rfl⟩ := Option.map_eq_some_iff.1 hvalues
    rw [lookup?_cons, hbound, Option.some_or] at hvalue
    rw [hout, yields_cons_cons hmerged.present] at hyields
    rw [lookup?_cons, hyields.1, Option.some_or, hbound, hvalue]

omit [Operand V] in
/-- The names that nodes which stay yield afterwards are bound when all that is defined is. -/
private theorem isSome_lookup_keep (hg : Wellformed visible g)
    (hmerged : Merged g place n drop keep h) (hb : Binds h b') {k : Node}
    (hk : k ∈ g.nodes.eraseIdx place) (hdrop : drop ∈ k.results) :
    (b'.lookup keep).isSome = true := by
  rw [hb keep, hmerged.defines_iff hg]
  refine ⟨?_, hmerged.distinct.symm⟩
  have hnot := ((hg.mem_results_eraseIdx hmerged.node).1 (List.mem_flatMap.2 ⟨k, hk, hdrop⟩)).2
  rcases hmerged.ends with ⟨-, hout⟩ | ⟨-, hout, -⟩
  · exact absurd (by simp [hout]) hnot
  · refine Graph.defines_iff.2 (.inr (Graph.mem_results.2 ⟨n, hmerged.mem_node, ?_⟩))
    exact Node.mem_results.2 ⟨by simp [hout], hmerged.present⟩

/-- A solution before the merge gives one afterwards. -/
private theorem Solves.merged (hm : m.Regular) (hg : WellformedTree visible g)
    (hmerged : Merged g place n drop keep h) (hb : Solves m g outer feeds b) :
    ∃ b', Solves m h outer feeds b' ∧ Joined outer drop keep b b' := by
  have here := hg.here
  have hlookup := lookup_filter (· != drop) b
  generalize (b.filter fun entry => entry.1 != drop) = b' at hlookup
  have hsame {name : String} (hname : name ≠ drop) : b'.lookup name = b.lookup name := by
    rw [hlookup, if_pos (by simpa using hname)]
  have hj : Joined outer drop keep b b' := by
    refine ⟨fun name => hsame, fun hne => ?_, fun hne => ?_⟩
    · rw [hb.isSome_lookup, hmerged.defines_drop hne]
    · rw [← hb.lookup?_keep hm hmerged hne, lookup?_cons, lookup?_cons,
        hsame hmerged.distinct.symm]
  have hbinds : Binds h b' := by
    intro name
    rw [Bool.eq_iff_iff, hmerged.defines_iff here, hlookup, ← hb.isSome_lookup]
    split <;> simp_all
  refine ⟨b', ⟨fun name hname => ?_, fun k' hk' => ?_, fun name hname => ?_⟩, hj⟩
  · rw [hmerged.inputs] at hname
    have hne : name ≠ drop := fun e => hmerged.drop_not_mem_inputs here (e ▸ hname)
    rw [hsame hne]
    exact hb.fed name hname
  · obtain ⟨k, hrest, hk, rfl⟩ := hmerged.mem_nodes hk'
    obtain ⟨values, hvalues, hyields⟩ := hb.computed k hk
    refine ⟨values, ?_, ?_⟩
    · rw [← toOption_eq_some, runNode_merged hm hg hmerged hj hk, hvalues, toOption_ok]
    · exact (hj.yields hmerged.present (isSome_lookup_keep here hmerged hbinds hrest)).2 hyields
  · exact hbinds name ▸ hname

/-- An identity computes what its two values are bound to. -/
private theorem computed_identity (hm : m.Regular) (hmerged : Merged g place n drop keep h)
    {value : V} (hkeep : lookup? (b :: outer) keep = some value)
    (hbound : keep ∈ n.results → (b.lookup keep).isSome = true)
    (hdrop : drop ≠ "" → b.lookup drop = some value) :
    ∃ values, runNode m n (bodiesOf m n) (b :: outer) = .ok values ∧ Yields n.outputs values b := by
  refine ⟨[value], ?_⟩
  rw [← toOption_eq_some]
  rcases hmerged.ends with ⟨hin, hout⟩ | ⟨hin, hout, hproduced⟩
  · rw [runNode_identity hm hmerged.op hin hmerged.present, hkeep, hout]
    refine ⟨rfl, ?_⟩
    by_cases hempty : drop = ""
    · rw [hempty, yields_cons_absent]
      exact yields_nil
    · exact (yields_cons_cons hempty).2 ⟨hdrop hempty, yields_nil⟩
  · have hne := Graph.ne_empty_of_mem_results hproduced
    rw [runNode_identity hm hmerged.op hin hne, hout, lookup?_cons, hdrop hne]
    refine ⟨rfl, (yields_cons_cons hmerged.present).2 ⟨?_, yields_nil⟩⟩
    obtain ⟨bound, hbound⟩ := Option.isSome_iff_exists.1
      (hbound (Node.mem_results.2 ⟨by simp [hout], hmerged.present⟩))
    rwa [lookup?_cons, hbound, Option.some_or, ← hbound] at hkeep

/-- A solution after the merge comes from one before. -/
private theorem Solves.unmerged (hm : m.Regular) (hg : WellformedTree visible g)
    (hmerged : Merged g place n drop keep h) (hbound : Bound g outer)
    (hb : Solves m h outer feeds b') :
    ∃ b, Solves m g outer feeds b ∧ Joined outer drop keep b b' := by
  have here := hg.here
  have hdefined {name : String} (hname : name ≠ drop) : h.defines name = g.defines name := by
    rw [Bool.eq_iff_iff, hmerged.defines_iff here]
    exact and_iff_left hname
  -- the value that the dropped name stands for
  obtain ⟨value, hvalue⟩ : ∃ value, lookup? (b' :: outer) keep = some value := by
    rw [← Option.isSome_iff_exists, lookup?_cons, Option.isSome_or, hb.isSome_lookup,
      hdefined hmerged.distinct.symm]
    cases hdef : g.defines keep with
    | true => rfl
    | false => exact hbound keep (mem_outerReferences_iff.2
        ⟨hdef, hmerged.defines_or_uses_keep.resolve_left (by simp [hdef])⟩)
  obtain ⟨b, hsame, hdrop⟩ : ∃ b : Bindings V, (∀ name, name ≠ drop → b'.lookup name = b.lookup name) ∧
      (if drop = "" then b.lookup drop = none else b.lookup drop = some value) := by
    by_cases hempty : drop = ""
    · refine ⟨b', fun _ _ => rfl, ?_⟩
      rw [if_pos hempty]
      refine hb.lookup_eq_none ?_
      rw [Bool.eq_false_iff, ne_eq, hmerged.defines_iff here]
      exact fun hdef => hdef.2 rfl
    · refine ⟨(drop, value) :: b', fun name hname => (lookup_cons_of_ne hname _ _).symm, ?_⟩
      rw [if_neg hempty, List.lookup_cons_self]
  have hj : Joined outer drop keep b b' := by
    refine ⟨hsame, fun hne => ?_, fun hne => ?_⟩
    · rw [if_neg hne] at hdrop
      rw [hdrop, Option.isSome_some]
    · rw [if_neg hne] at hdrop
      rw [hdrop, hvalue]
  refine ⟨b, ⟨fun name hname => ?_, fun k hk => ?_, fun name hname => ?_⟩, hj⟩
  · have hne : name ≠ drop := fun e => hmerged.drop_not_mem_inputs here (e ▸ hname)
    rw [← hsame name hne]
    exact hb.fed name (hmerged.inputs ▸ hname)
  · rcases List.mem_cons.1 ((perm_eraseIdx hmerged.node).mem_iff.2 hk) with rfl | hrest
    · refine computed_identity hm hmerged ?_ (fun hresult => ?_) fun hne => by simpa [hne] using hdrop
      · rw [lookup?_cons, ← hsame keep hmerged.distinct.symm, ← lookup?_cons, hvalue]
      · rw [← hsame keep hmerged.distinct.symm, hb.isSome_lookup, hdefined hmerged.distinct.symm]
        exact Graph.defines_iff.2 (.inr (Graph.mem_results.2 ⟨_, hmerged.mem_node, hresult⟩))
    · have hk' : k.merged drop keep ∈ h.nodes := hmerged.nodes ▸ List.mem_map_of_mem hrest
      obtain ⟨values, hvalues, hyields⟩ := hb.computed _ hk'
      refine ⟨values, ?_, ?_⟩
      · rw [← toOption_eq_some, ← runNode_merged hm hg hmerged hj hk, hvalues, toOption_ok]
      · exact (hj.yields hmerged.present
          (isSome_lookup_keep here hmerged hb.isSome_lookup hrest)).1 hyields
  · by_cases hname' : name = drop
    · subst hname'
      refine hmerged.defines_drop fun hempty => ?_
      rw [if_pos hempty] at hdrop
      simp [hdrop] at hname
    · rw [← hdefined hname', ← hb.isSome_lookup, hsame name hname']
      exact hname

/-- Merging the two values of an identity changes nothing. -/
theorem sameMeaning_of_merged (hm : m.Regular) (hg : WellformedTree visible g)
    (hmerged : Merged g place n drop keep h) : SameMeaning m g h where
  inputs := hmerged.inputs
  outputs := by rw [hmerged.outputs, List.length_map]
  outer := hmerged.outerReferences_subset hg.here
  run env feeds hbound := by
    have houtputs {b b' : Bindings V} (hj : Joined env drop keep b b') :
        h.outputs.mapM (lookup? (b' :: env)) = g.outputs.mapM (lookup? (b :: env)) := by
      rw [hmerged.outputs]
      refine mapM_eq_of_forall₂ (List.forall₂_map_right_iff.2 (List.forall₂_same.2 ?_))
      exact fun name hname => hj.renames name (hg.here.ne_empty_of_mem_outputs hname)
    refine Option.ext fun values => ?_
    rw [run_eq_some_iff hg, run_eq_some_iff (hmerged.wellformedTree hg)]
    constructor
    · rintro ⟨b', hb', hvalues⟩
      obtain ⟨b, hb, hj⟩ := hb'.unmerged hm hg hmerged hbound
      exact ⟨b, hb, houtputs hj ▸ hvalues⟩
    · rintro ⟨b, hb, hvalues⟩
      obtain ⟨b', hb', hj⟩ := hb.merged hm hg hmerged
      exact ⟨b', hb', (houtputs hj).trans hvalues⟩

end Merged

end Evaluation

end TensorGraph
