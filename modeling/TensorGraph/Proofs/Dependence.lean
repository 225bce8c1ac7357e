import TensorGraph.Proofs.Definitions

/-!
# What depends on what in a tree

A node needs the nodes of its graph that yield what it reads, be it itself or in its bodies, and it
needs the nodes of its bodies. A node somewhere in a tree may give way to one that reads another
value, if the value is seen from there and the node that yields it does not need the one that goes:
not even by way of the hosts around it, which come to read the value as well.

## Main results

* `Graph.offersAt_of_definition?` -- a value that does not draw on a node may be read by it.
* `Graph.wellformedTree_putAt_putNode` -- then a well-formed tree stays one.
-/

namespace TensorGraph.Graph

open Relation

variable {visible : String → Prop} {g scope body : Graph} {trail rest : Trail}
  {owner place : Nat} {key value : String} {n k : Node}

/-- Whether a node of a tree, given by the trail of its graph and its place there, needs another
one: it reads what that one yields, or that one stands in a body of it. -/
inductive Needs (g : Graph) : Trail × Nat → Trail × Nat → Prop
  | reads {trail : Trail} {scope : Graph} {i j : Nat} (found : g.bodyAt? trail = some scope)
      (depends : scope.DependsOn i j) : Needs g (trail, i) (trail, j)
  | inside {trail : Trail} {key : String} {body : Graph} {i j : Nat}
      (found : g.bodyAt? (trail ++ [(i, key)]) = some body) (lt : j < body.nodes.length) :
      Needs g (trail, i) (trail ++ [(i, key)], j)

/-- Whether what yields a value that is seen from the end of a trail needs a node. -/
def DrawsOn (g : Graph) (trail : Trail) (value : String) (target : Trail × Nat) : Prop :=
  ∃ upper made i, g.definition? trail value = some (upper, .output made i) ∧
    ReflTransGen g.Needs (upper, made) target

/-- Whether the node at a place of the graph at the end of a trail may begin to read a value. -/
structure OffersAt (g : Graph) (visible : String → Prop) (trail : Trail) (place : Nat)
    (value : String) : Prop where
  seen : visible value ∨ ∃ upper inner, upper <+: trail ∧ g.bodyAt? upper = some inner ∧
    inner.defines value = true
  free : ∀ upper inner made, upper <+: trail → g.bodyAt? upper = some inner →
    inner.producerPlace? value = some made → ¬ ReflTransGen g.Needs (upper, made) (trail, place)

/-! ## Needs below a node -/

/-- What nodes of a body need, they need in the tree. -/
theorem Needs.within (hkeyed : KeyedTree g) (hbody : g.HasBody owner key body)
    {source target : Trail × Nat} (h : body.Needs source target) :
    g.Needs ((owner, key) :: source.1, source.2) ((owner, key) :: target.1, target.2) := by
  cases h with
  | reads found depends =>
      exact .reads ((bodyAt?_cons hkeyed.here).2 ⟨body, hbody, found⟩) depends
  | @inside trail key' inner i j found lt =>
      have hfound : g.bodyAt? (((owner, key) :: trail) ++ [(i, key')]) = some inner :=
        (bodyAt?_cons hkeyed.here).2 ⟨body, hbody, found⟩
      exact .inside hfound lt

theorem reaches_within (hkeyed : KeyedTree g) (hbody : g.HasBody owner key body)
    {source target : Trail × Nat} (h : ReflTransGen body.Needs source target) :
    ReflTransGen g.Needs ((owner, key) :: source.1, source.2)
      ((owner, key) :: target.1, target.2) :=
  ReflTransGen.lift (fun node : Trail × Nat => ((owner, key) :: node.1, node.2))
    (fun _ _ => Needs.within hkeyed hbody) _ _ h

/-- A host needs whatever stands below it. -/
theorem reaches_below (hkeyed : KeyedTree g) (hat : g.bodyAt? ((owner, key) :: rest) = some scope)
    (hlt : place < scope.nodes.length) :
    ReflTransGen g.Needs ([], owner) ((owner, key) :: rest, place) := by
  induction rest generalizing g owner key with
  | nil =>
      have hfound : g.bodyAt? ([] ++ [(owner, key)]) = some scope := hat
      exact .single (.inside hfound hlt)
  | cons step rest ih =>
      obtain ⟨inner, key'⟩ := step
      obtain ⟨body, hbody, hrest⟩ := (bodyAt?_cons hkeyed.here).1 hat
      obtain ⟨deeper, ⟨m, hm, -⟩, -⟩ := (bodyAt?_cons (hkeyed.body hbody).here).1 hrest
      have hfound : g.bodyAt? ([] ++ [(owner, key)]) = some body :=
        (bodyAt?_cons hkeyed.here).2 ⟨body, hbody, rfl⟩
      exact .head (.inside hfound (List.getElem?_eq_some_iff.1 hm).1)
        (reaches_within hkeyed hbody (ih (hkeyed.body hbody) hrest))

/-- What a node of a graph depends on it needs. -/
theorem reaches_of_dependsOn {i j : Nat} (h : ReflTransGen g.DependsOn i j) :
    ReflTransGen g.Needs ([], i) ([], j) :=
  ReflTransGen.lift (fun i => (([] : Trail), i)) (fun _ _ => Needs.reads rfl) _ _ h

/-! ## Values that may be read -/

namespace OffersAt

/-- Where the node stands itself, the value may be read. -/
theorem here (h : g.OffersAt visible [] place value) : g.Offers visible place value := by
  refine ⟨?_, fun made hmade hpath => h.free [] g made (List.prefix_refl _) rfl hmade
    (reaches_of_dependsOn hpath)⟩
  rcases h.seen with hseen | ⟨upper, inner, hupper, hinner, hdef⟩
  · exact .inl hseen
  · rw [List.prefix_nil.1 hupper] at hinner
    obtain rfl := Option.some.inj hinner
    exact .inr hdef

/-- In a body it may be read too. -/
theorem inside (h : g.OffersAt visible ((owner, key) :: rest) place value) (hkeyed : KeyedTree g)
    (hbody : g.HasBody owner key body) : body.OffersAt (g.seenIn visible) rest place value := by
  have hbelow {upper : Trail} {inner : Graph} (hinner : body.bodyAt? upper = some inner) :
      g.bodyAt? ((owner, key) :: upper) = some inner :=
    (bodyAt?_cons hkeyed.here).2 ⟨body, hbody, hinner⟩
  refine ⟨?_, fun upper inner made hupper hinner hmade hpath =>
    h.free _ inner made ((List.prefix_cons_inj _).2 hupper) (hbelow hinner) hmade
      (reaches_within hkeyed hbody hpath)⟩
  rcases h.seen with hseen | ⟨upper, inner, hupper, hinner, hdef⟩
  · exact .inl (.inl hseen)
  · cases upper with
    | nil =>
        obtain rfl := Option.some.inj hinner
        exact .inl (.inr hdef)
    | cons step upper =>
        obtain ⟨rfl, hrest⟩ := List.cons_prefix_cons.1 hupper
        obtain ⟨body', hbody', hinner⟩ := (bodyAt?_cons hkeyed.here).1 hinner
        have hsame := (hasBody_iff hkeyed.here).1 hbody'
        rw [(hasBody_iff hkeyed.here).1 hbody] at hsame
        obtain rfl := Option.some.inj hsame
        exact .inr ⟨upper, inner, hrest, hinner, hdef⟩

/-- A host on the way may read the value, if it sees it. -/
theorem host (h : g.OffersAt visible ((owner, key) :: rest) place value) (hkeyed : KeyedTree g)
    (hat : g.bodyAt? ((owner, key) :: rest) = some scope) (hlt : place < scope.nodes.length)
    (hseen : g.seenIn visible value) : g.Offers visible owner value :=
  ⟨hseen, fun made hmade hpath => h.free [] g made List.nil_prefix rfl hmade
    ((reaches_of_dependsOn hpath).trans (reaches_below hkeyed hat hlt))⟩

end OffersAt

/-- A value that is seen from the end of a trail, and does not draw on a node there, may be read by
the node. -/
theorem offersAt_of_definition? (hg : ScopedTree visible g) (hkeyed : KeyedTree g)
    (hseen : (g.definition? trail value).isSome = true)
    (hfree : ¬ g.DrawsOn trail value (trail, place)) : g.OffersAt visible trail place value := by
  obtain ⟨found, hfound⟩ := Option.isSome_iff_exists.1 hseen
  obtain ⟨hupper, inner, hinner, hslot⟩ := mem_of_definition? hfound
  have hdef : inner.defines value = true := by rw [← isSome_slot?, hslot, Option.isSome_some]
  refine ⟨.inr ⟨found.1, inner, hupper, hinner, hdef⟩,
    fun upper scope made hprefix hscope hmade hpath => hfree ?_⟩
  have hmadeDef : scope.defines value = true :=
    defines_iff.2 (.inr (producerPlace?_isSome_iff.1 (by rw [hmade, Option.isSome_some])))
  obtain rfl := eq_of_defines hg hkeyed hupper hprefix hinner hscope hdef hmadeDef
  obtain rfl := Option.some.inj (hinner.symm.trans hscope)
  obtain ⟨_, htree⟩ := everywhere_bodyAt? hg hkeyed hinner
  obtain ⟨producer, hproducer, hresult⟩ := producerPlace?_mem hmade
  obtain ⟨i, hi⟩ := slot?_eq_output (htree.here.apart value
    (mem_results.2 ⟨producer, List.mem_of_getElem? hproducer, hresult⟩)) hmade
  refine ⟨found.1, made, i, ?_, hpath⟩
  rw [hfound, ← Option.some.inj (hslot.symm.trans hi)]

/-! ## Exchanges in a tree -/

/-- A well-formed tree stays one when a node somewhere in it gives way to a node without bodies that
yields the same values and reads what is offered there, and nothing else is taken from outside in
addition. -/
theorem wellformedTree_putAt_putNode (hg : WellformedTree visible g) (hkeyed : KeyedTree g)
    (hat : g.bodyAt? trail = some scope) (hn : scope.nodes[place]? = some n)
    (hname : k.name = n.name) (hresults : k.results = n.results) (hkeyed' : k.Keyed)
    (hequipped : Equipped k)
    (hbodies : k.bodies = []) (hreads : ∀ value ∈ k.reads, g.OffersAt visible trail place value) :
    WellformedTree visible (g.putAt trail (scope.putNode place k)) ∧
      ∀ name ∈ (g.putAt trail (scope.putNode place k)).outerReferences,
        name ∈ g.outerReferences ∨ name ∈ k.reads := by
  induction trail generalizing g visible with
  | nil =>
      obtain rfl := Option.some.inj hat
      refine ⟨hg.putNode hn hname hresults hkeyed' hequipped
        (fun value hread => .inr (hreads value hread).here) (by simp [hbodies]),
        fun name hname => ?_⟩
      exact (mem_outerReferences_putNode hn hresults hname).imp_right And.right
  | cons step rest ih =>
      obtain ⟨owner, key⟩ := step
      obtain ⟨body, hbody, hrest⟩ := (bodyAt?_cons hkeyed.here).1 hat
      obtain ⟨host, hhost, hmem⟩ := id hbody
      obtain ⟨htree, houter⟩ := ih (hg.body (List.mem_of_getElem? hhost) hmem) (hkeyed.body hbody)
        hrest fun value hread => (hreads value hread).inside hkeyed hbody
      rw [putAt, (hasBody_iff hkeyed.here).1 hbody]
      refine ⟨WellformedTree.putBody_offered hg hbody htree (arity_putAt hrest rfl)
        fun value hvalue => (houter value hvalue).imp_right fun hnew => ?_, fun name hname => ?_⟩
      · exact (hreads value hnew).host hkeyed hat (List.getElem?_eq_some_iff.1 hn).1
          (htree.visible_of_mem_outerReferences hvalue)
      · refine (mem_outerReferences_putBody hkeyed.here hbody hname).imp_right fun hnew => ?_
        exact (houter name hnew.1).resolve_left hnew.2

end TensorGraph.Graph
