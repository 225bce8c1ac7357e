import Mathlib.Logic.Equiv.Basic
import TensorGraph.Proofs.Lockstep
import TensorGraph.Proofs.Reordering
import TensorGraph.Proofs.Trails

/-!
# Trees in other names

When every name in the slots of a tree, at any depth, is replaced by another one, and different
names by different ones, nothing changes but the names: the same slots read what the same slots
define, and in an environment that is renamed likewise the tree does the same. What is known of
values and which nodes are bookmarked does not count.

## Main results

* `Graph.spelled_iff` -- a tree is spelled in other names when its root and its bodies are.
* `Graph.Spelled.mem_outerReferences`, `Graph.SpelledAs.producerPlace?_eq` -- slots keep their
  meaning.
* `Evaluation.run_spelled` -- and so does the tree.
-/

namespace TensorGraph

/-! ## Names -/

/-- Whether a node is another one with its slots in other names, its bodies apart. -/
structure Node.SpelledAs (σ : String → String) (n k : Node) : Prop where
  name : k.name = n.name
  op : k.op = n.op
  parameters : k.parameters = n.parameters
  inputs : k.inputs = n.inputs.map σ
  outputs : k.outputs = n.outputs.map σ

/-- Whether a graph is another one with its slots in other names, its bodies apart. -/
structure Graph.SpelledAs (σ : String → String) (g h : Graph) : Prop where
  name : h.name = g.name
  inputs : h.inputs = g.inputs.map σ
  outputs : h.outputs = g.outputs.map σ
  nodes : List.Forall₂ (Node.SpelledAs σ) g.nodes h.nodes

/-- What is known in the bodies of a node. -/
private def Node.tables (n : Node) : List InfoTable := n.bodies.map fun body => body.2.infos

/-- Whether a tree is another one with all slots in other names. Below the root the same is
known. -/
def Graph.Spelled (σ : String → String) : Graph → Graph → Prop :=
  fold fun g below h => g.SpelledAs σ h ∧
    List.Forall₂ (fun n k => k.tables = n.tables) g.nodes h.nodes ∧
    List.Forall₂ (fun inside k => List.Forall₂ (fun spelled body => spelled body.2) inside k.bodies)
      below h.nodes

/-- Whether a body is another one with all slots in other names, under the same key. -/
structure SpelledBody (σ : String → String) (body body' : String × Graph) : Prop where
  key : body'.1 = body.1
  infos : body'.2.infos = body.2.infos
  tree : body.2.Spelled σ body'.2

/-- Whether a node is another one with all slots in other names, those in its bodies included. -/
structure Node.Spelled (σ : String → String) (n k : Node) : Prop extends n.SpelledAs σ k where
  bodies : List.Forall₂ (SpelledBody σ) n.bodies k.bodies

section Names

variable {σ : String → String} {n k : Node} {g h : Graph}

/-- The keys of bodies are parameters. -/
private theorem keys_bodies (n : Node) : n.bodies.map Prod.fst =
    n.parameters.filterMap fun (key, value) => if value.isNone then some key else none := by
  unfold Node.bodies Node.parameters
  rw [List.map_filterMap, List.filterMap_map]
  refine List.filterMap_congr fun entry _ => ?_
  obtain ⟨key, value⟩ := entry
  cases value <;> rfl

private theorem forall₂_map_eq_iff {α β : Type} {f : α → β} {l l' : List α} :
    List.Forall₂ (fun a b => f b = f a) l l' ↔ l'.map f = l.map f := by
  rw [eq_comm, ← List.forall₂_eq_eq_eq, List.forall₂_map_left_iff, List.forall₂_map_right_iff]
  simp only [eq_comm]

theorem Graph.spelled_iff : g.Spelled σ h ↔ h.name = g.name ∧ h.inputs = g.inputs.map σ ∧
    h.outputs = g.outputs.map σ ∧ List.Forall₂ (Node.Spelled σ) g.nodes h.nodes := by
  unfold Spelled
  rw [fold_eq, List.forall₂_map_left_iff]
  simp only [List.forall₂_map_left_iff]
  constructor
  · rintro ⟨hspelled, htables, hbodies⟩
    refine ⟨hspelled.name, hspelled.inputs, hspelled.outputs, ?_⟩
    have hpairs := List.Forall₂.mp (fun _ _ => And.intro) htables hbodies
    refine List.Forall₂.mp (fun n k hnode hpair => ⟨hnode, ?_⟩) hspelled.nodes hpairs
    have hkeys : k.bodies.map Prod.fst = n.bodies.map Prod.fst := by
      rw [keys_bodies, keys_bodies, hnode.parameters]
    have hlabels := List.Forall₂.mp (fun _ _ => And.intro) (forall₂_map_eq_iff.2 hkeys)
      (forall₂_map_eq_iff.2 hpair.1)
    exact List.Forall₂.mp (fun _ _ hlabel htree => ⟨hlabel.1, hlabel.2, htree⟩) hlabels hpair.2
  · rintro ⟨hname, hinputs, houtputs, hnodes⟩
    exact ⟨⟨hname, hinputs, houtputs, hnodes.imp fun _ _ hnode => hnode.toSpelledAs⟩,
      hnodes.imp fun _ _ hnode =>
        forall₂_map_eq_iff.1 (hnode.bodies.imp fun _ _ hbody => hbody.infos),
      hnodes.imp fun _ _ hnode => hnode.bodies.imp fun _ _ hbody => hbody.tree⟩

end Names

/-! ## Slots keep their meaning -/

section Permutation

variable {σ : Equiv.Perm String} (hσ : σ "" = "") {n k : Node} {g h : Graph}

private theorem mem_map_perm {names : List String} {name : String} :
    σ name ∈ names.map σ ↔ name ∈ names :=
  List.mem_map_of_injective σ.injective

include hσ

theorem perm_eq_empty {name : String} : σ name = "" ↔ name = "" :=
  σ.injective.eq_iff' hσ

omit hσ in
private theorem findIdx?_eq {α β : Type} {p : α → Bool} {q : β → Bool} {l : List α} {l' : List β}
    (h : List.Forall₂ (fun a b => q b = p a) l l') : l'.findIdx? q = l.findIdx? p := by
  induction h with
  | nil => rfl
  | cons hab _ ih => rw [List.findIdx?_cons, List.findIdx?_cons, hab, ih]

/-- A value has its producer at the same place when the outputs of nodes get other names. -/
theorem Graph.producerPlace?_congr
    (hnodes : List.Forall₂ (fun n k => k.outputs = n.outputs.map σ) g.nodes h.nodes)
    (name : String) : h.producerPlace? (σ name) = g.producerPlace? name := by
  refine findIdx?_eq (hnodes.imp fun n k houtputs => ?_)
  rw [Bool.eq_iff_iff, Node.produces_iff, Node.produces_iff, Node.mem_results, Node.mem_results,
    houtputs, mem_map_perm, ne_eq, ne_eq, perm_eq_empty hσ]

/-- Nodes depend on each other alike when what they read and yield gets other names. -/
theorem Graph.dependsOn_congr (hnodes : List.Forall₂ (fun n k => k.outputs = n.outputs.map σ ∧
      ∀ name, σ name ∈ k.reads ↔ name ∈ n.reads) g.nodes h.nodes) (i j : Nat) :
    h.DependsOn i j ↔ g.DependsOn i j := by
  have hproducer := producerPlace?_congr hσ (hnodes.imp fun _ _ hn => hn.1)
  have hplace := rel_getElem? hnodes i
  unfold DependsOn
  revert hplace
  generalize g.nodes[i]? = found
  generalize h.nodes[i]? = found'
  rintro (@⟨n, k, -, hreads⟩ | -)
  · have hread : (∃ value ∈ k.reads, h.producerPlace? value = some j) ↔
        ∃ value ∈ n.reads, g.producerPlace? value = some j := by
      rw [σ.surjective.exists]
      exact exists_congr fun name => by rw [hreads, hproducer]
    simpa using hread
  · simp

namespace Graph.SpelledAs

theorem producerPlace?_eq (hg : g.SpelledAs σ h) (name : String) :
    h.producerPlace? (σ name) = g.producerPlace? name :=
  producerPlace?_congr hσ (hg.nodes.imp fun _ _ hn => hn.outputs) name

theorem defines_eq (hg : g.SpelledAs σ h) (name : String) :
    h.defines (σ name) = g.defines name := by
  rw [Bool.eq_iff_iff, defines_iff, defines_iff, hg.inputs, mem_map_perm,
    ← producerPlace?_isSome_iff, ← producerPlace?_isSome_iff, hg.producerPlace?_eq hσ]

end Graph.SpelledAs

omit hσ in
/-- Related lists have entries of related kinds alike. -/
theorem exists_iff_of_forall₂ {α β : Type} {p : α → Prop} {q : β → Prop} {l : List α} {l' : List β}
    (h : List.Forall₂ (fun a b => q b ↔ p a) l l') : (∃ b ∈ l', q b) ↔ ∃ a ∈ l, p a := by
  induction h with
  | nil => simp
  | cons hab _ ih => simp [hab, ih]

omit hσ in
/-- What follows for entries of the first list follows for related lists. -/
theorem forall₂_imp_of_mem {α β : Type} {R S : α → β → Prop} {l : List α} {l' : List β}
    (h : List.Forall₂ R l l') (himp : ∀ a ∈ l, ∀ b, R a b → S a b) : List.Forall₂ S l l' := by
  induction h with
  | nil => exact .nil
  | cons hab _ ih =>
      obtain ⟨hhere, hrest⟩ := List.forall_mem_cons.1 himp
      exact .cons (hhere _ hab) (ih hrest)

theorem Graph.Spelled.mem_outerReferences (hg : g.Spelled σ h) (name : String) :
    σ name ∈ h.outerReferences ↔ name ∈ g.outerReferences := by
  induction g using bodyInduction generalizing h with
  | step g ih =>
      obtain ⟨hname, hinputs, houtputs, hnodes⟩ := spelled_iff.1 hg
      have hread : (∃ k ∈ h.nodes, σ name ∈ k.inputs ∨
          ∃ body ∈ k.bodies, σ name ∈ body.2.outerReferences) ↔ ∃ n ∈ g.nodes, name ∈ n.inputs ∨
          ∃ body ∈ n.bodies, name ∈ body.2.outerReferences := by
        refine exists_iff_of_forall₂ (forall₂_imp_of_mem hnodes fun n hn k hspelled => ?_)
        rw [hspelled.inputs, mem_map_perm]
        exact or_congr_right (exists_iff_of_forall₂ (forall₂_imp_of_mem hspelled.bodies
          fun body hbody body' hspelled => ih n hn body hbody hspelled.tree))
      have hhere : g.SpelledAs σ h := ⟨hname, hinputs, houtputs, hnodes.imp fun _ _ hn => hn.1⟩
      rw [Graph.mem_outerReferences, Graph.mem_outerReferences, hhere.defines_eq hσ, hread, houtputs,
        mem_map_perm, ne_eq, ne_eq, perm_eq_empty hσ]

theorem Node.Spelled.mem_reads (hn : n.Spelled σ k) (name : String) :
    σ name ∈ k.reads ↔ name ∈ n.reads := by
  rw [Node.mem_reads, Node.mem_reads, hn.inputs, mem_map_perm, ne_eq, ne_eq, perm_eq_empty hσ]
  exact or_congr_right (exists_iff_of_forall₂
    (hn.bodies.imp fun _ _ hbody => hbody.tree.mem_outerReferences hσ name))

namespace Graph.Spelled

theorem dependsOn_iff (hg : g.Spelled σ h) (i j : Nat) : h.DependsOn i j ↔ g.DependsOn i j :=
  dependsOn_congr hσ ((spelled_iff.1 hg).2.2.2.imp fun _ _ hn =>
    ⟨hn.outputs, hn.mem_reads hσ⟩) i j

end Graph.Spelled

end Permutation

/-! ## Bodies -/

section Bodies

variable {σ : String → String} {n k : Node} {g h : Graph}

private theorem lookup_bodies_of_not_mem {attributes : List (String × Attribute)} {key : String}
    (h : key ∉ attributes.map Prod.fst) :
    (attributes.filterMap fun (key, value) => value.body?.map (key, ·)).lookup key = none := by
  rw [List.lookup_eq_none_iff]
  intro found hfound
  obtain ⟨entry, hentry, heq⟩ := List.mem_filterMap.1 hfound
  obtain ⟨body, -, rfl⟩ := Option.map_eq_some_iff.1 heq
  have hne : key ≠ entry.1 := fun e => h (List.mem_map.2 ⟨entry, hentry, e.symm⟩)
  simpa using hne

/-- A body is looked up among the bodies. -/
private theorem body?_eq_lookup (hn : n.Keyed) (key : String) :
    n.body? key = n.bodies.lookup key := by
  unfold Node.Keyed at hn
  unfold Node.body? Node.attribute? Node.bodies
  generalize n.attributes = attributes at hn
  induction attributes with
  | nil => rfl
  | cons entry rest ih =>
      obtain ⟨first, value⟩ := entry
      obtain ⟨hfirst, hrest⟩ := List.nodup_cons.1 hn
      rw [List.lookup_cons, List.filterMap_cons]
      by_cases hkey : key = first
      · subst hkey
        have hnone := lookup_bodies_of_not_mem hfirst
        cases value with
        | body => simp [Attribute.body?]
        | _ => exact (by simp [Attribute.body?] : _ = none).trans hnone.symm
      · rw [beq_false_of_ne hkey, ih hrest]
        cases value <;> simp [Attribute.body?, List.lookup_cons, beq_false_of_ne hkey]

theorem Node.SpelledAs.keyed (h : n.SpelledAs σ k) (hn : n.Keyed) : k.Keyed := by
  have hkeys (n : Node) : n.attributes.map Prod.fst = n.parameters.map Prod.fst := by
    simp [Node.parameters]
  unfold Node.Keyed at hn ⊢
  rwa [hkeys, h.parameters, ← hkeys]

theorem Node.Spelled.body? (h : n.Spelled σ k) (hn : n.Keyed) (key : String) :
    Option.Rel (fun body body' => body'.infos = body.infos ∧ body.Spelled σ body')
      (n.body? key) (k.body? key) := by
  rw [body?_eq_lookup hn, body?_eq_lookup (h.keyed hn)]
  have hbodies := h.bodies
  revert hbodies
  generalize n.bodies = bodies
  generalize k.bodies = bodies'
  intro hbodies
  induction hbodies with
  | nil => exact .none
  | cons hbody _ ih =>
      rw [List.lookup_cons, List.lookup_cons, hbody.key]
      split
      · exact .some ⟨hbody.infos, hbody.tree⟩
      · exact ih

namespace Graph.Spelled

theorem here (hg : g.Spelled σ h) : g.SpelledAs σ h := by
  obtain ⟨hname, hinputs, houtputs, hnodes⟩ := spelled_iff.1 hg
  exact ⟨hname, hinputs, houtputs, hnodes.imp fun _ _ hn => hn.1⟩

/-- A trail leads in both trees to the same body, and of a body the same is known. -/
theorem bodyAt? (hg : g.Spelled σ h) (hkeyed : KeyedTree g) (trail : Trail) :
    Option.Rel (fun body body' => (trail ≠ [] → body'.infos = body.infos) ∧ body.Spelled σ body')
      (g.bodyAt? trail) (h.bodyAt? trail) := by
  induction trail generalizing g h with
  | nil => exact .some ⟨fun hne => absurd rfl hne, hg⟩
  | cons step rest ih =>
      obtain ⟨place, key⟩ := step
      have hnode := rel_getElem? (spelled_iff.1 hg).2.2.2 place
      rw [Graph.bodyAt?, Graph.bodyAt?]
      revert hnode
      generalize hn : g.nodes[place]? = found
      generalize h.nodes[place]? = found'
      rintro (@⟨n, k, hnode⟩ | -)
      · have hmem := hkeyed.here n (List.mem_of_getElem? hn)
        have hbody := hnode.body? hmem key
        rw [Option.bind_some, Option.bind_some]
        revert hbody
        generalize hfound : n.body? key = inner
        generalize k.body? key = inner'
        rintro (@⟨body, body', hinfos, hspelled⟩ | -)
        · have hbody : g.HasBody place key body := ⟨n, hn, (Node.body?_eq_some hmem).1 hfound⟩
          have hrest := ih hspelled (hkeyed.body hbody)
          cases rest with
          | nil => exact .some ⟨fun _ => hinfos, hspelled⟩
          | cons step rest =>
              rw [Option.bind_some, Option.bind_some]
              revert hrest
              generalize body.bodyAt? (step :: rest) = last
              generalize body'.bodyAt? (step :: rest) = last'
              rintro (hlast | -)
              · exact .some ⟨fun _ => hlast.1 (List.cons_ne_nil _ _), hlast.2⟩
              · exact .none
        · exact .none
      · exact .none

end Graph.Spelled

end Bodies

/-! ## What a tree does -/

namespace Evaluation

open TensorGraph.Graph

variable {V : Type} [Operand V] {m : Machine V} {σ : Equiv.Perm String}

omit [Operand V] in
private theorem lookup_map_perm (name : String) (entries : List (String × Option V)) :
    (entries.map fun entry => (σ entry.1, entry.2)).lookup (σ name) = entries.lookup name := by
  induction entries with
  | nil => rfl
  | cons entry rest ih =>
      obtain ⟨first, value⟩ := entry
      rw [List.map_cons, List.lookup_cons, List.lookup_cons, ih]
      have hbeq : (σ name == σ first) = (name == first) := by
        rw [Bool.eq_iff_iff, beq_iff_eq, beq_iff_eq, σ.injective.eq_iff]
      rw [hbeq]

section Feeds

variable (hkeeps : ∀ name, Inherited.keeps (σ name) = Inherited.keeps name)
  (hunfed : ∀ name, (Operand.unfed (σ name) : Option V) = Operand.unfed name)
include hkeeps hunfed

/-- A loop feeds the same values to the inputs of its body under other names. -/
theorem loopFeeds_map {inputs : List String} (hinputs : 2 ≤ inputs.length) (iteration : Nat)
    (condition : Bool) (carried : List V) (name : String) :
    loopFeeds (inputs.map σ) iteration condition carried (σ name) =
      loopFeeds inputs iteration condition carried name := by
  have hnone : 2 - inputs.length = 0 := by omega
  unfold loopFeeds
  simp only [List.length_map, hnone, List.replicate_zero, List.append_nil, List.zipIdx_map,
    List.map_map, hkeeps, hunfed]
  generalize inputs.zipIdx = places
  set fed : String × Nat → String × Option V := fun place => (place.1,
    (Operand.scalar .int64 (Number.ofNat iteration) :: truth condition :: carried)[place.2]?)
  have hfed : ((fun place : String × Nat => (place.1,
      (Operand.scalar .int64 (Number.ofNat iteration) :: truth condition :: carried)[place.2]?)) ∘
        Prod.map σ id) = (fun entry : String × Option V => (σ entry.1, entry.2)) ∘ fed := rfl
  rw [hfed, ← List.map_map, ← List.map_reverse, List.filter_map, lookup_map_perm, lookup_map_perm]
  rfl

end Feeds

/-- The body of a loop that keeps its rules has inputs for the iteration and the condition. -/
theorem two_le_inputs {n : Node} (hn : n.Keyed) (hequipped : Equipped n) (hop : n.op = "Loop")
    {body : Graph} (hbody : ("body", body) ∈ n.bodies) : 2 ≤ body.inputs.length := by
  have hproblems := hequipped.1 hop
  unfold loopProblems at hproblems
  rw [(Node.body?_eq_some hn).2 hbody] at hproblems
  dsimp only at hproblems
  split at hproblems
  · cases hproblems
  · rename_i hcount
    rw [List.append_eq_nil_iff] at hproblems
    have hlength : body.inputs.length = n.inputs.length := by
      by_contra hne
      simp [hne] at hproblems
    omega

variable (hσ : σ "" = "") (hkeeps : ∀ name, Inherited.keeps (σ name) = Inherited.keeps name)
  (hunfed : ∀ name, (Operand.unfed (σ name) : Option V) = Operand.unfed name)
include hσ hkeeps hunfed

/-- In an environment and on feeds in other names a tree in other names does the same. -/
theorem run_spelled (hm : m.Regular) {g h : Graph} (hg : g.Spelled σ h) (hkeyed : KeyedTree g)
    {enclosing : List Graph} (hruled : Ruled enclosing g) {outer outer' : Environment V}
    (houter : Transported σ outer outer') {feeds feeds' : String → Option V}
    (hfeeds : ∀ name ∈ g.inputs, feeds' (σ name) = feeds name) :
    (run m h outer' feeds').toOption = (run m g outer feeds).toOption := by
  induction g using bodyInduction generalizing h enclosing outer outer' feeds feeds' with
  | step g ih =>
      obtain ⟨-, hinputs, houtputs, hnodes⟩ := spelled_iff.1 hg
      have horder := topologicalOrder_congr hnodes.length_eq.symm (hg.dependsOn_iff hσ)
      refine run_lockstep σ.injective (fun _ => perm_eq_empty hσ) hinputs houtputs horder houter
        hfeeds (forall₂_imp_of_mem hnodes fun n hn k hspelled =>
          ⟨hspelled.outputs, fun b b' hb => ?_⟩)
      have henv := houter.cons hb
      refine runNode_agrees hspelled.name hspelled.op
        (hm.functional n k hspelled.name hspelled.op hspelled.parameters) ?_ ?_
      · rw [hspelled.inputs, List.forall₂_map_right_iff]
        exact List.forall₂_same.2 fun name _ => ⟨perm_eq_empty hσ, fun _ => henv name⟩
      · unfold bodiesOf
        rw [List.forall₂_map_left_iff, List.forall₂_map_right_iff]
        refine forall₂_imp_of_mem hspelled.bodies fun body hbody body' hsame => ?_
        cases hruled with
        | intro hrules hbelow =>
            have hrun {feeds feeds' : String → Option V}
                (hfeeds : ∀ name ∈ body.2.inputs, feeds' (σ name) = feeds name) :=
              ih n hn body hbody hsame.tree (Everywhere.body hkeyed hn hbody)
                (hbelow n hn body hbody) henv hfeeds
            have hbodyInputs := hsame.tree.here.inputs
            refine ⟨hsame.key, by simp [hsame.tree.here.outputs], fun hloop hkey iteration condition
              carried => hrun fun name _ => ?_, fun _ => hrun fun name _ => hunfed name⟩
            rw [hbodyInputs]
            refine loopFeeds_map hkeeps hunfed ?_ iteration condition carried name
            exact two_le_inputs (hkeyed.here n hn) (hrules n hn).1 hloop (hkey ▸ hbody)

end Evaluation

end TensorGraph
