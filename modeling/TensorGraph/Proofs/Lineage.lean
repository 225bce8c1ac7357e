import TensorGraph.Proofs.Steps

/-!
# Where the graphs of a tree come from

No pass gives a node a body that it has not had, and no node that has one gets another name. So the
graph at the end of a way through hosts and keys, after any number of rewrites, comes from the graph
that stood at the end of that way before, and what one rewrite keeps of a graph is kept at every place
of the tree.

## Main results

* `Graph.Lineal.of_keepsBodies` -- what holds between two roots holds throughout, if bodies are kept.
* `Rewriting.Within.lineal` -- what steps keep of a graph they keep of every graph of a tree.
-/

namespace TensorGraph

namespace Graph

/-- Whether a graph stands where the names of hosts and the keys of bodies lead. -/
inductive Holds : Graph → List (String × String) → Graph → Prop
  | here {g : Graph} : Holds g [] g
  | inside {g body inner : Graph} {n : Node} {key : String} {path : List (String × String)}
      (host : n ∈ g.nodes) (slot : (key, body) ∈ n.bodies) (below : Holds body path inner) :
      Holds g ((n.name, key) :: path) inner

/-- Whether every graph of a tree is in a relation to one that stood in its place. -/
def Lineal (R : Graph → Graph → Prop) (g h : Graph) : Prop :=
  ∀ path inner, h.Holds path inner → ∃ outer, g.Holds path outer ∧ R outer inner

/-- Whether something holds of every graph of a tree. -/
def Throughout (P : Graph → Prop) (g : Graph) : Prop := ∀ path inner, g.Holds path inner → P inner

namespace Throughout

variable {P : Graph → Prop} {g : Graph}

theorem here (hg : Throughout P g) : P g := hg [] g .here

theorem inside (hg : Throughout P g) {place : Nat} {key : String} {body : Graph}
    (hbody : g.HasBody place key body) : Throughout P body := by
  obtain ⟨n, hn, hmem⟩ := hbody
  exact fun path inner hinner => hg _ inner (.inside (List.mem_of_getElem? hn) hmem hinner)

theorem intro (hroot : P g) (hbodies : ∀ n ∈ g.nodes, ∀ body ∈ n.bodies, Throughout P body.2) :
    Throughout P g := by
  intro path inner hinner
  cases hinner with
  | here => exact hroot
  | inside host slot below => exact hbodies _ host _ slot _ inner below

end Throughout

namespace Lineal

variable {R : Graph → Graph → Prop} {g h k : Graph}

theorem throughout {P : Graph → Prop} (hl : Lineal R g h) (hR : ∀ {g h}, R g h → P g → P h)
    (hg : Throughout P g) : Throughout P h := by
  intro path inner hinner
  obtain ⟨outer, houter, hrel⟩ := hl path inner hinner
  exact hR hrel (hg path outer houter)

theorem here (hl : Lineal R g h) : R g h := by
  obtain ⟨outer, houter, hR⟩ := hl [] h .here
  cases houter
  exact hR

theorem refl (hrefl : ∀ g, R g g) (g : Graph) : Lineal R g g :=
  fun _ inner hinner => ⟨inner, hinner, hrefl inner⟩

theorem trans (htrans : ∀ {g h k}, R g h → R h k → R g k) (h₁ : Lineal R g h)
    (h₂ : Lineal R h k) : Lineal R g k := by
  intro path inner hinner
  obtain ⟨middle, hmiddle, hlast⟩ := h₂ path inner hinner
  obtain ⟨outer, houter, hfirst⟩ := h₁ path middle hmiddle
  exact ⟨outer, houter, htrans hfirst hlast⟩

theorem mono {R' : Graph → Graph → Prop} (hmono : ∀ {g h}, R g h → R' g h) (hl : Lineal R g h) :
    Lineal R' g h := by
  intro path inner hinner
  obtain ⟨outer, houter, hR⟩ := hl path inner hinner
  exact ⟨outer, houter, hmono hR⟩

/-- What holds of two trees at their roots and in their bodies holds throughout. -/
theorem of_bodies (hroot : R g h)
    (hbodies : ∀ n ∈ h.nodes, ∀ body ∈ n.bodies, ∃ m ∈ g.nodes, m.name = n.name ∧
      ∃ before ∈ m.bodies, before.1 = body.1 ∧ Lineal R before.2 body.2) : Lineal R g h := by
  intro path inner hinner
  cases hinner with
  | here => exact ⟨g, .here, hroot⟩
  | @inside _ body _ n key path host slot below =>
      obtain ⟨m, hm, hname, before, hbefore, hkey, hbody⟩ := hbodies n host (key, body) slot
      obtain ⟨outer, houter, hR⟩ := hbody path inner below
      obtain ⟨_, before⟩ := before
      subst hkey
      exact ⟨outer, hname ▸ .inside hm hbefore houter, hR⟩

/-- Below its root a graph that loses nodes comes from where it came from before. -/
theorem of_subset (hl : Lineal R g k) (hroot : R g h) (hsub : h.nodes ⊆ k.nodes) : Lineal R g h := by
  intro path inner hinner
  cases hinner with
  | here => exact ⟨g, .here, hroot⟩
  | inside host slot below => exact hl _ inner (.inside (hsub host) slot below)

/-- What a substitution keeps of a graph it keeps throughout a tree. -/
theorem substituteOuter (hrefl : ∀ g, R g g) {old new : String}
    (hsub : ∀ g, R g (g.substituteOuter old new)) (g : Graph) :
    Lineal R g (g.substituteOuter old new) := by
  induction g using bodyInduction with
  | step g ih =>
      refine .of_bodies (hsub g) fun n hn body hbody => ?_
      rw [nodes_substituteOuter] at hn
      split at hn
      · exact ⟨n, hn, rfl, body, hbody, rfl, .refl hrefl body.2⟩
      · obtain ⟨m, hm, rfl⟩ := List.mem_map.1 hn
        refine ⟨m, hm, by simp, ?_⟩
        obtain ⟨before, hbefore, hkey, hsame | ⟨-, hsame⟩⟩ := mem_bodies_replaceReads hbody
        · exact ⟨before, hbefore, hkey.symm, hsame ▸ .refl hrefl before.2⟩
        · exact ⟨before, hbefore, hkey.symm, hsame ▸ ih m hm before hbefore⟩

variable (hrefl : ∀ g, R g g) (htrans : ∀ {g h k}, R g h → R h k → R g k)

include hrefl htrans

theorem substituted {allowed : String → String → Prop}
    (hsub : ∀ old new, allowed old new → ∀ g, R g (g.substituteOuter old new))
    (h : Substituted allowed g k) : Lineal R g k := by
  induction h with
  | refl => exact .refl hrefl g
  | tail _ hstep ih =>
      obtain ⟨old, new, hnew, rfl⟩ := hstep
      exact ih.trans htrans (.substituteOuter hrefl (hsub old new hnew) _)

/-- What holds of two roots holds throughout their trees if bodies are kept, up to substitutions. -/
theorem of_keepsBodies
    (hsub : ∀ old new, g.Handles new → ∀ k, R k (k.substituteOuter old new))
    (hroot : R g h) (hkeeps : KeepsBodies (fun _ new => g.Handles new) g h) : Lineal R g h := by
  refine .of_bodies hroot fun n hn body hbody => ?_
  obtain ⟨m, hm, hname, before, hbefore, hkey, hbodies⟩ := hkeeps n hn body hbody
  exact ⟨m, hm, hname, before, hbefore, hkey, .substituted hrefl htrans hsub hbodies⟩

omit htrans in
/-- What holds when a body is replaced holds throughout if it does so in that body. -/
theorem putBody {place : Nat} {key : String} {old new : Graph} (hkeyed : ∀ n ∈ g.nodes, n.Keyed)
    (hroot : R g (g.putBody place key new)) (hbody : g.HasBody place key old)
    (hold : Lineal R old new) : Lineal R g (g.putBody place key new) := by
  obtain ⟨m, hm, hmem⟩ := hbody
  refine .of_bodies hroot fun n hn body hbody => ?_
  rcases (mem_nodes_putBody hm).1 hn with rfl | ⟨j, -, hj⟩
  · refine ⟨m, List.mem_of_getElem? hm, rfl, ?_⟩
    rcases (Node.mem_bodies_rebodied (hkeyed m (List.mem_of_getElem? hm)) hmem).1 hbody with
      rfl | ⟨hbody, -⟩
    · exact ⟨_, hmem, rfl, hold⟩
    · exact ⟨body, hbody, rfl, .refl hrefl body.2⟩
  · exact ⟨n, List.mem_of_getElem? hj, rfl, body, hbody, rfl, .refl hrefl body.2⟩

end Lineal

end Graph

namespace Rewriting

open TensorGraph.Graph

/-- What steps on a graph keep they keep throughout a tree. -/
theorem Within.lineal {step : Surroundings → Graph → Graph → Prop} {R : Graph → Graph → Prop}
    (hrefl : ∀ g, R g g)
    (hput : ∀ g place key new, R g (g.putBody place key new))
    (hstep : ∀ s g h, step s g h → TidyIn s g → Lineal R g h)
    {s : Surroundings} {g h : Graph} (hw : Within step s g h) (hg : TidyIn s g) :
    Lineal R g h := by
  induction hw with
  | here step => exact hstep _ _ _ step hg
  | inside body shown _ ih =>
      exact .putBody hrefl hg.tree.here.keyed (hput _ _ _ _) body (ih (tidyIn_shown hg body))

/-- What edits keep is kept by what a pass does at once. -/
theorem Rewrite.of_edits {s : Surroundings} {R : Graph → Graph → Prop} (hrefl : ∀ g, R g g)
    (htrans : ∀ {g h k}, R g h → R h k → R g k)
    (hedit : ∀ {g h kind}, Edit s g kind h → TidyIn s g → R g h) {g h : Graph}
    (hr : Rewrite s g h) (hg : TidyIn s g) : R g h := by
  have htidying : ∀ {g h}, Tidying s g h → TidyIn s g → R g h := by
    intro g h hsteps hg
    induction hsteps with
    | refl => exact hrefl g
    | tail hbefore hstep ih =>
        obtain ⟨kind, -, he⟩ := hstep
        exact htrans ih (hedit he (Tidying.tidyIn hbefore hg))
  rcases hr.edits hg with ⟨-, htreated⟩ | ⟨kind, -, he⟩
  · obtain ⟨kind, between, -, hfirst, hrest⟩ := htreated.edits
    exact htrans (hedit hfirst hg) (htidying hrest (hfirst.tidyIn hg))
  · exact hedit he hg

/-- What the steps of a run keep is kept by the run. -/
theorem Run.of_steps {s : Surroundings} {R : Graph → Graph → Prop} (hrefl : ∀ g, R g g)
    (htrans : ∀ {g h k}, R g h → R h k → R g k)
    (hrewrite : ∀ g h, TidyIn s g → Within Rewrite s g h → R g h)
    (hsort : ∀ g h, TidyIn s g → Within Sorted s g h → R g h) {g h : Graph} {count : Nat}
    (hr : Run s g count h) (hg : TidyIn s g) : R g h := by
  induction hr with
  | start => exact hrefl g
  | rewrite before step ih => exact htrans ih (hrewrite _ _ (before.tidyIn hg) step)
  | sort before step ih => exact htrans ih (hsort _ _ (before.tidyIn hg) step)

end Rewriting

end TensorGraph
