import Mathlib.Data.List.Forall2
import Mathlib.Logic.Relation
import TensorGraph.Proofs.Lineage
import TensorGraph.Proofs.Settling

/-!
# Output slots when identities go

Values between which identities lead are alike. Whatever identities are removed, an output slot goes
on naming a value that is alike the one it named. In the graph whose identity goes, no two slots fall
together. But a name that a body takes from outside may be replaced in its slots as well, and nothing
is looked at there. So two slots of a body may come to name one value, when both named values alike
one that is defined around the body; and they can in no other way.

## Main results

* `Graph.followsThroughout_of_edit` -- what the removal of one identity does to the slots of a tree.
* `Pass.identity_outputs` -- what the pass does to them.
* `Pass.not_identity_outputs_apart` -- two slots of a body may fall together.
-/

namespace TensorGraph

open TensorGraph.Graph Rewriting

/-! ## Values that are alike -/

/-- Whether an identity in one of some graphs takes the first value and yields the second. -/
def Handed (scopes : List Graph) (a b : String) : Prop :=
  ∃ g ∈ scopes, ∃ n ∈ g.nodes, n.op = "Identity" ∧ n.inputs = [a] ∧ n.outputs = [b]

/-- Whether identities in some graphs lead from one value to another, in whichever directions. -/
abbrev Alike (scopes : List Graph) : String → String → Prop := Relation.EqvGen (Handed scopes)

/-- Whether graphs define no more than others, and have no more values alike. -/
structure Narrower (scopes scopes' : List Graph) : Prop where
  defined : ∀ value, definedBy scopes' value → definedBy scopes value
  handed : ∀ a b, Handed scopes' a b → Alike scopes a b

section Alike

variable {scopes scopes' scopes'' : List Graph} {g h : Graph} {old new : String}

theorem Alike.forall₂_trans {as bs cs : List String} (h₁ : List.Forall₂ (Alike scopes) as bs)
    (h₂ : List.Forall₂ (Alike scopes) bs cs) : List.Forall₂ (Alike scopes) as cs := by
  induction h₁ generalizing cs with
  | nil => exact h₂
  | cons hab _ ih =>
      cases h₂ with
      | cons hbc hrest => exact .cons (hab.trans _ _ _ hbc) (ih hrest)

theorem Alike.substituteName (hsame : Alike scopes old new) (name : String) :
    Alike scopes name (substituteName old new name) := by
  rw [substituteName_eq]
  split
  · rename_i heq
    exact heq ▸ hsame
  · exact .refl name

theorem Alike.forall₂_substitute (hsame : Alike scopes old new) (names : List String) :
    List.Forall₂ (Alike scopes) names (names.map (TensorGraph.substituteName old new)) :=
  List.forall₂_map_right_iff.2 (List.forall₂_same.2 fun name _ => hsame.substituteName name)

namespace Narrower

theorem alike (hn : Narrower scopes scopes') {a b : String} (hab : Alike scopes' a b) :
    Alike scopes a b := by
  induction hab with
  | rel a b hab => exact hn.handed a b hab
  | refl a => exact .refl a
  | symm a b _ ih => exact ih.symm
  | trans a b c _ _ ih₁ ih₂ => exact ih₁.trans _ _ _ ih₂

theorem refl (scopes : List Graph) : Narrower scopes scopes := ⟨fun _ => id, fun _ _ => .rel _ _⟩

theorem trans (h₁ : Narrower scopes scopes') (h₂ : Narrower scopes' scopes'') :
    Narrower scopes scopes'' :=
  ⟨fun value hvalue => h₁.defined value (h₂.defined value hvalue),
    fun a b hab => h₁.alike (h₂.handed a b hab)⟩

/-- The same graph inside narrower ones. -/
theorem cons (hn : Narrower scopes scopes') (g : Graph) : Narrower (g :: scopes) (g :: scopes') := by
  refine ⟨?_, ?_⟩
  · rintro value ⟨k, hk, hvalue⟩
    rcases List.mem_cons.1 hk with rfl | hk
    · exact ⟨k, List.mem_cons_self, hvalue⟩
    · obtain ⟨m, hm, hvalue⟩ := hn.defined value ⟨k, hk, hvalue⟩
      exact ⟨m, List.mem_cons_of_mem _ hm, hvalue⟩
  · rintro a b ⟨k, hk, hhanded⟩
    rcases List.mem_cons.1 hk with rfl | hk
    · exact .rel _ _ ⟨k, List.mem_cons_self, hhanded⟩
    · refine (hn.handed a b ⟨k, hk, hhanded⟩).mono fun a b => ?_
      rintro ⟨m, hm, hhanded⟩
      exact ⟨m, List.mem_cons_of_mem _ hm, hhanded⟩

end Narrower

end Alike

/-! ## Graphs that follow others -/

namespace Graph

/-- Whether a graph stands where the names of hosts and the keys of bodies lead, and inside which
graphs, innermost first. -/
inductive HoldsIn : List Graph → Graph → List (String × String) → List Graph → Graph → Prop
  | here {scopes : List Graph} {g : Graph} : HoldsIn scopes g [] scopes g
  | inside {scopes around : List Graph} {g body inner : Graph} {n : Node} {key : String}
      {path : List (String × String)} (host : n ∈ g.nodes) (slot : (key, body) ∈ n.bodies)
      (below : HoldsIn (g :: scopes) body path around inner) :
      HoldsIn scopes g ((n.name, key) :: path) around inner

/-- Whether two values of a graph are alike one that is defined around it. -/
def MeetAround (scopes : List Graph) (g : Graph) (a b : String) : Prop :=
  ∃ value, definedBy scopes value ∧ Alike (g :: scopes) a value ∧ Alike (g :: scopes) b value

/-- Whether two slots fall together only if their values are alike one that is defined around the
graph. -/
def MeetOnlyAround (scopes : List Graph) (g h : Graph) : Prop :=
  ∀ (i j : Nat) (a b : String), g.outputs[i]? = some a → g.outputs[j]? = some b → a ≠ b →
    h.outputs[i]? = h.outputs[j]? → MeetAround scopes g a b

/-- Whether the slots of a graph follow those of another one: they name values that are alike, and two
fall together only if their values are alike one that is defined around the graph. -/
structure Follows (scopes : List Graph) (g : Graph) (scopes' : List Graph) (h : Graph) : Prop where
  around : Narrower scopes scopes'
  within : Narrower (g :: scopes) (h :: scopes')
  slots : List.Forall₂ (Alike (g :: scopes)) g.outputs h.outputs
  met : ∀ (i j : Nat) (a b : String), g.outputs[i]? = some a → g.outputs[j]? = some b → a ≠ b →
    h.outputs[i]? = h.outputs[j]? → MeetAround scopes g a b

/-- Whether every graph of a tree follows one that stood in its place. -/
def FollowsThroughout (scopes : List Graph) (g : Graph) (scopes' : List Graph) (h : Graph) : Prop :=
  ∀ path around' inner, HoldsIn scopes' h path around' inner →
    ∃ around outer, HoldsIn scopes g path around outer ∧ Follows around outer around' inner

variable {scopes scopes' scopes'' : List Graph} {g h k : Graph}

private theorem exists_slot {α : Type} {R : α → α → Prop} {as bs : List α}
    (h : List.Forall₂ R as bs) {i : Nat} {a : α} (ha : as[i]? = some a) :
    ∃ b, bs[i]? = some b ∧ R a b := by
  induction h generalizing i with
  | nil => simp at ha
  | @cons a' b' as bs hab _ ih =>
      cases i with
      | zero => exact ⟨b', rfl, by simpa [← Option.some.inj ha] using hab⟩
      | succ i => exact ih ha

/-- Slots that stay do not fall together. -/
theorem MeetOnlyAround.of_eq (scopes : List Graph) (hsame : h.outputs = g.outputs) :
    MeetOnlyAround scopes g h := by
  intro i j a b ha hb hne hmeet
  rw [hsame, ha, hb] at hmeet
  exact absurd (Option.some.inj hmeet) hne

namespace Follows

/-- The same graph inside narrower ones. -/
theorem of_narrower (hn : Narrower scopes scopes') (g : Graph) : Follows scopes g scopes' g where
  around := hn
  within := hn.cons g
  slots := List.forall₂_refl _
  met := MeetOnlyAround.of_eq scopes rfl

theorem trans (h₁ : Follows scopes g scopes' h) (h₂ : Follows scopes' h scopes'' k) :
    Follows scopes g scopes'' k where
  around := h₁.around.trans h₂.around
  within := h₁.within.trans h₂.within
  slots := Alike.forall₂_trans h₁.slots (h₂.slots.imp fun _ _ => h₁.within.alike)
  met i j a b ha hb hne hsame := by
    obtain ⟨a', ha', haa'⟩ := exists_slot h₁.slots ha
    obtain ⟨b', hb', hbb'⟩ := exists_slot h₁.slots hb
    by_cases heq : a' = b'
    · exact h₁.met i j a b ha hb hne (by rw [ha', hb', heq])
    · obtain ⟨value, hvalue, hav, hbv⟩ := h₂.met i j a' b' ha' hb' heq hsame
      exact ⟨value, h₁.around.defined value hvalue, haa'.trans _ _ _ (h₁.within.alike hav),
        hbb'.trans _ _ _ (h₁.within.alike hbv)⟩

end Follows

namespace FollowsThroughout

theorem trans (h₁ : FollowsThroughout scopes g scopes' h) (h₂ : FollowsThroughout scopes' h scopes'' k) :
    FollowsThroughout scopes g scopes'' k := by
  intro path around'' inner hinner
  obtain ⟨around', middle, hmiddle, hlast⟩ := h₂ path around'' inner hinner
  obtain ⟨around, outer, houter, hfirst⟩ := h₁ path around' middle hmiddle
  exact ⟨around, outer, houter, hfirst.trans hlast⟩

/-- What holds of two trees at their roots and in their bodies holds throughout. -/
theorem of_bodies (hroot : Follows scopes g scopes' h)
    (hbodies : ∀ n ∈ h.nodes, ∀ body ∈ n.bodies, ∃ m ∈ g.nodes, m.name = n.name ∧
      ∃ before ∈ m.bodies, before.1 = body.1 ∧
        FollowsThroughout (g :: scopes) before.2 (h :: scopes') body.2) :
    FollowsThroughout scopes g scopes' h := by
  intro path around' inner hinner
  cases hinner with
  | here => exact ⟨scopes, g, .here, hroot⟩
  | @inside _ _ _ body _ n key path host slot below =>
      obtain ⟨m, hm, hname, ⟨_, before⟩, hbefore, rfl, hbody⟩ := hbodies n host (key, body) slot
      obtain ⟨around, outer, houter, hfollows⟩ := hbody path around' inner below
      exact ⟨around, outer, hname ▸ .inside hm hbefore houter, hfollows⟩

/-- The same tree inside narrower graphs. -/
theorem of_narrower (hn : Narrower scopes scopes') (g : Graph) :
    FollowsThroughout scopes g scopes' g := by
  induction g using bodyInduction generalizing scopes scopes' with
  | step g ih =>
      exact .of_bodies (.of_narrower hn g) fun n hmem body hbody =>
        ⟨n, hmem, rfl, body, hbody, rfl, ih n hmem body hbody (hn.cons g)⟩

end FollowsThroughout

end Graph

/-! ## Nodes -/

/-- Whether a node is another one but for names of values that are alike, and its bodies follow those
of the other one. -/
structure Node.Follows (scopes : List Graph) (n k : Node) : Prop where
  name : k.name = n.name
  op : k.op = n.op
  inputs : List.Forall₂ (Alike scopes) n.inputs k.inputs
  outputs : List.Forall₂ (Alike scopes) n.outputs k.outputs
  bodies : ∀ body ∈ k.bodies, ∃ before ∈ n.bodies, before.1 = body.1 ∧
    FollowsThroughout scopes before.2 scopes body.2

namespace Node.Follows

variable {scopes : List Graph} {n m k : Node} {old new : String}

theorem refl (scopes : List Graph) (n : Node) : n.Follows scopes n where
  name := rfl
  op := rfl
  inputs := List.forall₂_refl _
  outputs := List.forall₂_refl _
  bodies body hbody := ⟨body, hbody, rfl, .of_narrower (.refl scopes) body.2⟩

theorem trans (h₁ : n.Follows scopes m) (h₂ : m.Follows scopes k) : n.Follows scopes k where
  name := h₂.name.trans h₁.name
  op := h₂.op.trans h₁.op
  inputs := Alike.forall₂_trans h₁.inputs h₂.inputs
  outputs := Alike.forall₂_trans h₁.outputs h₂.outputs
  bodies body hbody := by
    obtain ⟨middle, hmiddle, hkey, hlast⟩ := h₂.bodies body hbody
    obtain ⟨before, hbefore, hkey', hfirst⟩ := h₁.bodies middle hmiddle
    exact ⟨before, hbefore, hkey'.trans hkey, hfirst.trans hlast⟩

end Node.Follows

namespace Graph

variable {scopes : List Graph} {g h : Graph} {old new : String}

/-- A tree follows another one when the nodes of its root do. -/
theorem followsThroughout_of_nodes (hdefined : ∀ value, h.defines value = true → g.defines value = true)
    (hnodes : ∀ k ∈ h.nodes, ∃ n ∈ g.nodes, n.Follows (g :: scopes) k)
    (hslots : List.Forall₂ (Alike (g :: scopes)) g.outputs h.outputs)
    (hmet : MeetOnlyAround scopes g h) :
    FollowsThroughout scopes g scopes h := by
  have hwithin : Narrower (g :: scopes) (h :: scopes) := by
    refine ⟨?_, ?_⟩
    · rintro value ⟨k, hk, hvalue⟩
      rcases List.mem_cons.1 hk with rfl | hk
      · exact ⟨g, List.mem_cons_self, hdefined value hvalue⟩
      · exact ⟨k, List.mem_cons_of_mem _ hk, hvalue⟩
    · rintro a b ⟨k, hk, m, hm, hop, hin, hout⟩
      rcases List.mem_cons.1 hk with rfl | hk
      · -- the identity was one before, between values that are alike its own
        obtain ⟨n, hn, hfollows⟩ := hnodes m hm
        have hinputs := hfollows.inputs
        have houtputs := hfollows.outputs
        rw [hin, List.forall₂_cons_right_iff] at hinputs
        rw [hout, List.forall₂_cons_right_iff] at houtputs
        obtain ⟨a', rest, haa', hnil, hin'⟩ := hinputs
        obtain ⟨b', rest', hbb', hnil', hout'⟩ := houtputs
        rw [List.forall₂_nil_right_iff.1 hnil] at hin'
        rw [List.forall₂_nil_right_iff.1 hnil'] at hout'
        have hhanded : Alike (g :: scopes) a' b' := .rel _ _
          ⟨g, List.mem_cons_self, n, hn, hfollows.op ▸ hop, hin', hout'⟩
        exact (haa'.symm.trans _ _ _ hhanded).trans _ _ _ hbb'
      · exact .rel _ _ ⟨k, List.mem_cons_of_mem _ hk, m, hm, hop, hin, hout⟩
  refine .of_bodies ⟨.refl scopes, hwithin, hslots, hmet⟩ fun k hk body hbody => ?_
  obtain ⟨n, hn, hfollows⟩ := hnodes k hk
  obtain ⟨before, hbefore, hkey, hbelow⟩ := hfollows.bodies body hbody
  exact ⟨n, hn, hfollows.name.symm, before, hbefore, hkey,
    hbelow.trans (.of_narrower hwithin body.2)⟩

end Graph

/-! ## Substitutions -/

section Substitutions

variable {scopes : List Graph} {g : Graph} {n : Node} {old new : String}

theorem Alike.cons {a b : String} (hab : Alike scopes a b) (g : Graph) : Alike (g :: scopes) a b :=
  Relation.EqvGen.mono (fun _ _ ⟨k, hk, hhanded⟩ => ⟨k, List.mem_cons_of_mem _ hk, hhanded⟩) _ _ hab

theorem definedBy.cons {value : String} (hvalue : definedBy scopes value) (g : Graph) :
    definedBy (g :: scopes) value :=
  hvalue.imp fun _ ⟨hk, hdefines⟩ => ⟨List.mem_cons_of_mem _ hk, hdefines⟩

/-- A substitution makes two names one only if they are its names. -/
theorem eq_of_substituteName_eq {a b : String} (hne : a ≠ b)
    (h : substituteName old new a = substituteName old new b) :
    a = old ∧ b = new ∨ a = new ∧ b = old := by
  rw [substituteName_eq, substituteName_eq] at h
  split at h <;> split at h
  · exact absurd (by simp [*]) hne
  · exact .inl ⟨by assumption, h.symm⟩
  · exact .inr ⟨h, by assumption⟩
  · exact absurd h hne

namespace Node.Follows

private theorem replaceReads_of_bodies (hsame : Alike scopes old new)
    (hbodies : old ∈ n.reads → ∀ body ∈ n.bodies,
      FollowsThroughout scopes body.2 scopes (body.2.substituteOuter old new)) :
    n.Follows scopes (n.replaceReads old new) := by
  by_cases hread : old ∈ n.reads
  · refine ⟨by simp, by simp, ?_, by simpa using List.forall₂_refl _, fun body hbody => ?_⟩
    · rw [Node.replaceReads_of_mem hread]
      exact hsame.forall₂_substitute n.inputs
    · rw [Node.bodies_replaceReads, if_pos hread] at hbody
      obtain ⟨before, hbefore, rfl⟩ := List.mem_map.1 hbody
      exact ⟨before, hbefore, rfl, hbodies hread before hbefore⟩
  · rw [Node.replaceReads_of_not_mem new hread]
    exact .refl scopes n

theorem renamed (hsame : Alike scopes old new) (n : Node) : n.Follows scopes (n.renamed old new) where
  name := by simp
  op := by simp
  inputs := by simpa using List.forall₂_refl _
  outputs := by
    unfold Node.renamed
    split
    · exact hsame.forall₂_substitute n.outputs
    · exact List.forall₂_refl _
  bodies body hbody :=
    ⟨body, by rwa [Node.bodies_renamed] at hbody, rfl, .of_narrower (.refl scopes) body.2⟩

end Node.Follows

/-- A tree that takes another name from outside for one that is alike follows the tree before. -/
theorem Graph.followsThroughout_substituteOuter (hsame : Alike scopes old new)
    (hold : definedBy scopes old) (g : Graph) :
    FollowsThroughout scopes g scopes (g.substituteOuter old new) := by
  induction g using bodyInduction generalizing scopes with
  | step g ih =>
      by_cases hdef : g.defines old = true
      · rw [substituteOuter_eq, if_pos hdef]
        exact .of_narrower (.refl scopes) g
      have houtputs : (g.substituteOuter old new).outputs =
          g.outputs.map (substituteName old new) := by
        rw [substituteOuter_eq, if_neg hdef]
      refine followsThroughout_of_nodes (fun value => by simp) (fun k hk => ?_) ?_ ?_
      · rw [nodes_substituteOuter, if_neg hdef] at hk
        obtain ⟨n, hn, rfl⟩ := List.mem_map.1 hk
        exact ⟨n, hn, .replaceReads_of_bodies (hsame.cons g) fun _ body hbody =>
          ih n hn body hbody (hsame.cons g) (definedBy.cons hold g)⟩
      · rw [houtputs]
        exact (hsame.cons g).forall₂_substitute g.outputs
      · intro i j a b ha hb hne hmeet
        simp only [houtputs, List.getElem?_map, ha, hb, Option.map_some, Option.some.injEq] at hmeet
        have hback : Alike (g :: scopes) new old := (hsame.cons g).symm
        rcases eq_of_substituteName_eq hne hmeet with ⟨rfl, rfl⟩ | ⟨rfl, rfl⟩
        · exact ⟨_, hold, .refl _, hback⟩
        · exact ⟨_, hold, hback, .refl _⟩

theorem Node.Follows.replaceReads (hsame : Alike scopes old new)
    (hold : old ≠ "" → definedBy scopes old) (n : Node) :
    n.Follows scopes (n.replaceReads old new) :=
  .replaceReads_of_bodies hsame fun hread body _ =>
    followsThroughout_substituteOuter hsame (hold (Node.ne_empty_of_mem_reads hread)) body.2

end Substitutions

/-! ## One identity -/

namespace Graph

variable {taken : String → Prop} {s : Surroundings} {g h : Graph} {place : Nat} {n : Node}
  {old new : String}

/-- Whether the outputs of a graph that its nodes yield are still its outputs and still yielded. -/
structure KeepsYields (g h : Graph) : Prop where
  inputs : h.inputs = g.inputs
  outputs : h.outputs = g.outputs
  yielded : ∀ value ∈ g.outputs, value ∈ g.results → value ∈ h.results

theorem KeepsYields.refl (g : Graph) : KeepsYields g g := ⟨rfl, rfl, fun _ _ => id⟩

theorem KeepsYields.trans {k : Graph} (h₁ : KeepsYields g h) (h₂ : KeepsYields h k) :
    KeepsYields g k :=
  ⟨h₂.inputs.trans h₁.inputs, h₂.outputs.trans h₁.outputs, fun value hout hresult =>
    h₂.yielded value (h₁.outputs ▸ hout) (h₁.yielded value hout hresult)⟩

/-- What an identity hands on is alike what it takes. -/
private theorem alike_ends (hn : g.nodes[place]? = some n) (hop : n.op = "Identity")
    (hin : n.inputs = [new]) (hout : n.outputs = [old]) (scopes : List Graph) :
    Alike (g :: scopes) new old :=
  .rel _ _ ⟨g, List.mem_cons_self, n, List.mem_of_getElem? hn, hop, hin, hout⟩

private theorem definedBy_of_mem_results {value : String} (hvalue : value ∈ g.results)
    (scopes : List Graph) : definedBy (g :: scopes) value :=
  ⟨g, List.mem_cons_self, defines_iff.2 (.inr hvalue)⟩

private theorem Bypassed.followsThroughout (hb : Bypassed g place n old new h)
    (hop : n.op = "Identity") (hin : n.inputs = [new]) {scopes : List Graph}
    (hslots : List.Forall₂ (Alike (g :: scopes)) g.outputs h.outputs)
    (hmet : MeetOnlyAround scopes g h) : FollowsThroughout scopes g scopes h := by
  refine followsThroughout_of_nodes (fun value hvalue => ?_) (fun k hk => ?_) hslots hmet
  · rw [defines_iff, hb.inputs] at hvalue
    exact defines_iff.2 (hvalue.imp_right hb.results_subset)
  · obtain ⟨j, -, m, hm, rfl⟩ := hb.mem_nodes.1 hk
    refine ⟨m, List.mem_of_getElem? hm, .replaceReads (alike_ends hb.node hop hin hb.outputs scopes).symm
      (fun hne => definedBy_of_mem_results ?_ scopes) m⟩
    exact Graph.mem_results.2 ⟨n, List.mem_of_getElem? hb.node,
      Node.mem_results.2 ⟨by simp [hb.outputs], hne⟩⟩

private theorem Promoted.followsThroughout (hp : Promoted g place n old new h)
    (hop : n.op = "Identity") (hin : n.inputs = [new]) (scopes : List Graph) :
    FollowsThroughout scopes g scopes h := by
  have hsame := alike_ends hp.node hop hin hp.outputs scopes
  refine followsThroughout_of_nodes (fun value hvalue => ?_) (fun k hk => ?_)
    (hp.yielded ▸ List.forall₂_refl _) (.of_eq scopes hp.yielded)
  · rw [defines_iff, hp.inputs] at hvalue
    exact defines_iff.2 (hvalue.imp_right hp.results_subset)
  · obtain ⟨before, hbefore, j, m, -, hm, rfl⟩ := hp.mem_nodes hk
    have hfirst : m.Follows (g :: scopes) (before m) := by
      rcases hbefore with rfl | rfl
      · exact .refl _ m
      · refine .replaceReads hsame.symm (fun hne => definedBy_of_mem_results ?_ scopes) m
        exact Graph.mem_results.2 ⟨n, List.mem_of_getElem? hp.node,
          Node.mem_results.2 ⟨by simp [hp.outputs], hne⟩⟩
    exact ⟨m, List.mem_of_getElem? hm, (hfirst.trans (.renamed hsame _)).trans
      (.replaceReads hsame (fun _ => definedBy_of_mem_results hp.produced scopes) _)⟩

/-- When an identity goes the slots of the tree follow those before it, and at the root the outputs
that are yielded stay. -/
theorem followsThroughout_of_edit (he : Edit s g .removal h) (hg : Tidy taken g) :
    FollowsThroughout s.enclosing g s.enclosing h ∧ (s.enclosing = [] → KeepsYields g h) := by
  have forwarded {n : Node} {new : String} (hreason : StandsFor s g n new .removal) :
      n.op = "Identity" ∧ n.inputs = [new] := by
    cases hreason with
    | forwarded op inputs => exact ⟨op, inputs⟩
  cases he with
  | @redirect _ place n old new infos node outputs inside apart distinct reason =>
      obtain ⟨hop, hin⟩ := forwarded reason
      have hb : Bypassed g place n old new (redirected g place old new infos) :=
        bypassed_of_redirect hg node outputs inside distinct reason
      have hsame : (redirected g place old new infos).outputs = g.outputs := by
        simp [redirected, dropNode]
      refine ⟨hb.followsThroughout hop hin (hsame ▸ List.forall₂_refl _) (.of_eq _ hsame), fun _ => ?_⟩
      refine ⟨hb.inputs, hsame, fun value hvalue hresult => (hb.mem_results ?_).2 hresult⟩
      rintro rfl
      simp [isOutput, hvalue] at inside
  | promote node outputs yielded produced inside reason between renamed =>
      obtain ⟨hop, hin⟩ := forwarded reason
      have hp := promoted_of_promote hg node outputs yielded produced inside reason between renamed
      refine ⟨hp.followsThroughout hop hin s.enclosing, fun _ => ?_⟩
      refine ⟨hp.inputs, hp.yielded, fun value hvalue hresult => (hp.mem_results ?_).2 hresult⟩
      rintro rfl
      exact hp.inside hvalue
  | @passthrough place n old new after node op inputs present outputs yielded apart other enclosed outer
      rebound =>
      have hb := bypassed_of_passthrough (s := s) hg node outputs
        (fun e => by rw [e, other] at yielded; cases yielded) (.forwarded op inputs present) rebound
      obtain ⟨-, -, houtputs⟩ := rebindOutput_ok rebound
      have houtputs : h.outputs = g.outputs.map (substituteName old new) := by
        simpa [dropNode] using houtputs
      refine ⟨hb.followsThroughout op inputs ?_ ?_, fun hroot => absurd hroot enclosed⟩
      · rw [houtputs]
        exact Alike.forall₂_substitute (alike_ends node op inputs outputs s.enclosing).symm g.outputs
      · -- what the slot takes was no output before
        intro i j a b ha hb' hne hmeet
        have hnot : new ∉ g.outputs := by simpa [isOutput] using other
        simp only [houtputs, List.getElem?_map, ha, hb', Option.map_some, Option.some.injEq] at hmeet
        rcases eq_of_substituteName_eq hne hmeet with ⟨-, rfl⟩ | ⟨rfl, -⟩
        · exact absurd (List.mem_of_getElem? hb') hnot
        · exact absurd (List.mem_of_getElem? ha) hnot

end Graph

/-! ## Sweeps -/

/-- Whether what a sweep leaves, if it does not fail, follows the tree that it was given. -/
structure KeepsSlots (s : Surroundings) (g : Graph) (sweep : Sweep) : Prop where
  faithful : Faithful s g sweep
  follows : sweep.failure = none → FollowsThroughout s.enclosing g s.enclosing sweep.graph
  kept : sweep.failure = none → s.enclosing = [] → KeepsYields g sweep.graph

namespace KeepsSlots

variable {s : Surroundings} {g : Graph}

/-- A node with another body follows the node if the body follows the one before. -/
private theorem follows_rebodied {scopes : List Graph} {n : Node} {key : String} {old new : Graph}
    (hkeyed : n.Keyed) (hold : (key, old) ∈ n.bodies)
    (hnew : FollowsThroughout scopes old scopes new) : n.Follows scopes (n.rebodied key new) where
  name := rfl
  op := rfl
  inputs := List.forall₂_refl _
  outputs := List.forall₂_refl _
  bodies body hbody := by
    rcases (Node.mem_bodies_rebodied hkeyed hold).1 hbody with rfl | ⟨hbody, -⟩
    · exact ⟨_, hold, rfl, hnew⟩
    · exact ⟨body, hbody, rfl, .of_narrower (.refl scopes) body.2⟩

private theorem followsThroughout_putBody {scopes : List Graph} {place : Nat} {key : String}
    {old new : Graph} (hkeyed : ∀ n ∈ g.nodes, n.Keyed) (hbody : g.HasBody place key old)
    (hnew : FollowsThroughout (g :: scopes) old (g :: scopes) new) :
    FollowsThroughout scopes g scopes (g.putBody place key new) := by
  obtain ⟨n, hn, hold⟩ := hbody
  refine followsThroughout_of_nodes (fun value => by simp) (fun k hk => ?_)
    (by simpa using List.forall₂_refl _) (.of_eq scopes outputs_putBody)
  rcases (mem_nodes_putBody hn).1 hk with rfl | ⟨j, -, hj⟩
  · have hmem := List.mem_of_getElem? hn
    exact ⟨n, hmem, follows_rebodied (hkeyed n hmem) hold hnew⟩
  · exact ⟨k, List.mem_of_getElem? hj, .refl _ k⟩

theorem compositional : Compositional TidyIn KeepsSlots where
  keyed hg := hg.tree.here.keyed
  inside hg hbody := hg.inside hbody
  start {s g} _ := ⟨.start s g, fun _ => .of_narrower (.refl _) g, fun _ _ => .refl g⟩
  andThen {s g first next} hg hfirst hnext := by
    refine ⟨hfirst.faithful.andThen hg fun hnone htidy => (hnext hnone htidy).faithful,
      fun hnone => ?_, fun hnone hroot => ?_⟩ <;>
    · obtain ⟨hbefore, hafter, hgraph⟩ := Sweep.unfailed_of_andThen hnone
      have hsecond := hnext hbefore ((hfirst.faithful.run hbefore).tidyIn hg)
      rw [hgraph]
      first
        | exact (hfirst.follows hbefore).trans (hsecond.follows hafter)
        | exact (hfirst.kept hbefore hroot).trans (hsecond.kept hafter hroot)
  putBody hg hbody hinner :=
    ⟨Faithful.compositional.putBody hg hbody hinner.faithful,
      fun hnone => followsThroughout_putBody hg.tree.here.keyed hbody (hinner.follows hnone),
      fun _ _ => ⟨inputs_putBody, outputs_putBody, fun _ _ => mem_results_putBody.2⟩⟩

end KeepsSlots

theorem Identities.keepsSlots_sweepGraph {s : Surroundings} {g : Graph} (hg : TidyIn s g) :
    KeepsSlots s g (sweepGraph s g) := by
  have hkept (hnone : (sweepGraph s g).failure = none) : TidyIn s (sweepGraph s g).graph ∧
      FollowsThroughout s.enclosing g s.enclosing (sweepGraph s g).graph ∧
        (s.enclosing = [] → KeepsYields g (sweepGraph s g).graph) := by
    refine Sweep.untilClean_keeps (fun h => TidyIn s h ∧
      FollowsThroughout s.enclosing g s.enclosing h ∧ (s.enclosing = [] → KeepsYields g h))
      (fun h h' line hh hstep => ?_) ⟨hg, .of_narrower (.refl _) g, fun _ => .refl g⟩ hnone
    obtain ⟨htidy, hfollows, hyields⟩ := hh
    obtain ⟨-, hedit⟩ := removeFirst_rewrites hstep
    obtain ⟨hlater, hlaterYields⟩ := followsThroughout_of_edit hedit htidy.tree.here
    exact ⟨hedit.tidyIn htidy, hfollows.trans hlater,
      fun hroot => (hyields hroot).trans (hlaterYields hroot)⟩
  exact ⟨faithful_sweepGraph hg, fun hnone => (hkept hnone).2.1, fun hnone => (hkept hnone).2.2⟩

/-! ## The pass -/

namespace Pass

/-- When identities have been removed from a valid graph, its outputs are what they were, and those that
nodes yielded are still yielded and no inputs. Every graph below has as many output slots as the graph
that stood in its place, and two of them that named different values still do, unless identities led
from both values to one that is defined around the graph. -/
theorem identity_outputs {g : Graph} (hvalid : g.IsValid) (hkeyed : KeyedTree g) (number : Nat)
    (hnone : (identity.run .root number g).failure = none) :
    (identity.run .root number g).graph.outputs = g.outputs ∧
    (∀ value ∈ g.outputs, value ∈ g.results →
      value ∈ (identity.run .root number g).graph.results ∧
        value ∉ (identity.run .root number g).graph.inputs) ∧
    ∀ path around' inner, HoldsIn [] (identity.run .root number g).graph path around' inner →
      ∃ around outer, HoldsIn [] g path around outer ∧
        inner.outputs.length = outer.outputs.length ∧ MeetOnlyAround around outer inner := by
  have hg := hvalid.tidyIn hkeyed
  have hkept : KeepsSlots .root g (everyGraph Identities.sweepGraph .root g) :=
    KeepsSlots.compositional.everyGraph (fun s g hg => Identities.keepsSlots_sweepGraph hg) hg
  have hyields := hkept.kept hnone rfl
  refine ⟨hyields.outputs, fun value hvalue hresult => ⟨hyields.yielded value hvalue hresult, ?_⟩, ?_⟩
  · have hinputs : (identity.run .root number g).graph.inputs = g.inputs := hyields.inputs
    rw [hinputs]
    exact hg.tree.here.apart value hresult
  · intro path around' inner hinner
    obtain ⟨around, outer, houter, hfollows⟩ := hkept.follows hnone path around' inner hinner
    exact ⟨around, outer, houter, hfollows.slots.length_eq.symm, hfollows.met⟩

/-- A graph in which the branches of a conditional put out the two values of an identity, in either
order. -/
def crossing : Graph where
  inputs := ["x", "condition"]
  outputs := ["left", "right"]
  nodes := [
    { name := "clip", op := "Relu", inputs := ["x"], outputs := ["clipped"] },
    { name := "hand", op := "Identity", inputs := ["clipped"], outputs := ["handed"] },
    { name := "choose", op := "If", inputs := ["condition"], outputs := ["left", "right"]
      attributes := [("then_branch", .body { outputs := ["clipped", "handed"] }),
        ("else_branch", .body { outputs := ["handed", "clipped"] })] }]

private theorem keyedTree_crossing : KeyedTree crossing := by
  refine .intro (by simp [crossing, Node.Keyed]) fun n hn body hbody => .intro ?_ ?_ <;>
  · have hbranch : body ∈ crossing.nodes.flatMap Node.bodies := List.mem_flatMap.2 ⟨n, hn, hbody⟩
    rw [show crossing.nodes.flatMap Node.bodies = [("then_branch", { outputs := ["clipped", "handed"] }),
      ("else_branch", { outputs := ["handed", "clipped"] })] from rfl] at hbranch
    simp only [List.mem_cons, List.not_mem_nil, or_false] at hbranch
    rcases hbranch with rfl | rfl <;> simp

theorem identity_outputs_crossing :
    crossing.IsValid ∧ KeyedTree crossing ∧ (identity.run .root 0 crossing).failure = none ∧
      (identity.run .root 0 crossing).graph.outputs = ["left", "right"] ∧
      (∀ value ∈ ["left", "right"], value ∈ (identity.run .root 0 crossing).graph.results ∧
        value ∉ (identity.run .root 0 crossing).graph.inputs) ∧
      ∀ path around' inner, HoldsIn [] (identity.run .root 0 crossing).graph path around' inner →
        ∃ around outer, HoldsIn [] crossing path around outer ∧
          inner.outputs.length = outer.outputs.length ∧ MeetOnlyAround around outer inner := by
  have hvalid : crossing.IsValid := by
    unfold IsValid
    decide +kernel
  have hnone : (identity.run .root 0 crossing).failure = none := by decide +kernel
  obtain ⟨houtputs, hyielded, hslots⟩ := identity_outputs hvalid keyedTree_crossing 0 hnone
  refine ⟨hvalid, keyedTree_crossing, hnone, houtputs, fun value hvalue => ?_, hslots⟩
  exact hyielded value hvalue (by revert value; decide)

/-- Two output slots of a branch fall together, as nothing looks at them when the identity outside
goes. -/
theorem not_identity_outputs_apart :
    ∃ (g outer inner : Graph) (path : List (String × String)), g.IsValid ∧
      (identity.run .root 0 g).failure = none ∧ g.Holds path outer ∧
      (identity.run .root 0 g).graph.Holds path inner ∧
      outer.outputs[0]? ≠ outer.outputs[1]? ∧ inner.outputs[0]? = inner.outputs[1]? := by
  obtain ⟨n, hn, hname, ⟨key, inner⟩, hbody, hkey, hsame⟩ :
      ∃ n ∈ (identity.run .root 0 crossing).graph.nodes, n.name = "choose" ∧ ∃ body ∈ n.bodies,
        body.1 = "then_branch" ∧ body.2.outputs[0]? = body.2.outputs[1]? := by decide +kernel
  obtain rfl : key = "then_branch" := hkey
  refine ⟨crossing, { outputs := ["clipped", "handed"] }, inner, [("choose", "then_branch")], ?_, ?_,
    ?_, hname ▸ .inside hn hbody .here, by decide, hsame⟩
  · unfold IsValid
    decide +kernel
  · decide +kernel
  · exact .inside (n := crossing.nodes[2]) (by simp [crossing])
      (by simp [crossing, Node.bodies, Attribute.body?]) .here

end Pass

end TensorGraph
