import TensorGraph.Proofs.Running

/-!
# Solutions

A graph is run node by node, but what comes out does not depend on the order. It is the solution
of a system of equations: the inputs are bound to what they are fed, and every node yields what it
computes from the bindings. Equations are easier to carry through a change of the graph than the
steps of a run.

## Main results

* `Evaluation.run_local` -- what a graph does depends on the names that it takes from outside.
* `Evaluation.run_localBeside` -- and on the empty name, where an input around it may bear that.
* `Evaluation.run_eq_some_iff` -- a run has a result exactly when the equations have a solution.
* `Evaluation.run_congr` -- graphs with the same equations do the same.
-/

namespace TensorGraph.Evaluation

open TensorGraph.Graph

variable {V : Type} [Operand V] {m : Machine V} {g : Graph} {outer : Environment V}
  {feeds : String → Option V} {b c : Bindings V}

/-- Whether bindings solve the equations of a graph: each input is bound to what it is fed, each
node yields what it computes from the bindings, and nothing else is bound. -/
structure Solves (m : Machine V) (g : Graph) (outer : Environment V) (feeds : String → Option V)
    (b : Bindings V) : Prop where
  fed : ∀ name ∈ g.inputs, (feeds name).isSome = true ∧ b.lookup name = feeds name
  computed : ∀ n ∈ g.nodes, ∃ values, runNode m n (bodiesOf m n) (b :: outer) = .ok values ∧
    Yields n.outputs values b
  only : ∀ name, (b.lookup name).isSome = true → g.defines name = true

/-- A solution binds exactly what the graph defines. -/
theorem Solves.isSome_lookup (h : Solves m g outer feeds b) (name : String) :
    (b.lookup name).isSome = g.defines name := by
  rw [Bool.eq_iff_iff]
  refine ⟨h.only name, fun hdef => ?_⟩
  rcases defines_iff.1 hdef with hinput | hresult
  · obtain ⟨hfed, hbound⟩ := h.fed name hinput
    rw [hbound, hfed]
  · obtain ⟨n, hn, hresult⟩ := mem_results.1 hresult
    obtain ⟨hout, hne⟩ := Node.mem_results.1 hresult
    obtain ⟨i, hi⟩ := List.getElem?_of_mem hout
    obtain ⟨values, -, hyields⟩ := h.computed n hn
    obtain ⟨value, -, hbound⟩ := hyields i name hi hne
    rw [hbound, Option.isSome_some]

theorem Solves.lookup_eq_none (h : Solves m g outer feeds b) {name : String}
    (hname : g.defines name = false) : b.lookup name = none := by
  have := h.isSome_lookup name
  rw [hname] at this
  simpa using this

/-! ## Graphs that read what they take from outside -/

/-- Whether what is done for a graph depends on the values of the names only that the graph takes
from outside, and of those in `also`. -/
def LocalBeside (also : String → Prop) (g : Graph) (does : Meaning V) : Prop :=
  ∀ env env' feeds,
    (∀ name, name ∈ g.outerReferences ∨ also name → lookup? env' name = lookup? env name) →
      (does env' feeds).toOption = (does env feeds).toOption

/-- Whether what is done for a graph depends on the values of the names only that the graph takes
from outside. -/
def Local (g : Graph) (does : Meaning V) : Prop :=
  ∀ env env' feeds, (∀ name ∈ g.outerReferences, lookup? env' name = lookup? env name) →
    (does env' feeds).toOption = (does env feeds).toOption

omit [Operand V] in
theorem localBeside_nothing {does : Meaning V} :
    LocalBeside (fun _ => False) g does ↔ Local g does := by
  simp only [LocalBeside, Local, or_false]

variable {also : String → Prop}

/-- A node yields the same values in two environments that agree on what it reads, and on what its
bodies may depend on besides. -/
private theorem runNode_of_agreeBeside {n : Node}
    (hlocal : ∀ body ∈ n.bodies, LocalBeside also body.2 (run m body.2)) {env env' : Environment V}
    (h : ∀ name, name ∈ n.reads ∨ also name → lookup? env' name = lookup? env name) :
    (runNode m n (bodiesOf m n) env').toOption = (runNode m n (bodiesOf m n) env).toOption := by
  refine runNode_congr ⟨rfl, rfl, fun _ => rfl, ?_, ?_⟩
  · refine List.forall₂_same.2 fun name hname => ⟨Iff.rfl, fun hne => ?_⟩
    exact h name (.inl (Node.mem_reads.2 (.inl ⟨hname, hne⟩)))
  · unfold bodiesOf
    rw [List.forall₂_map_left_iff, List.forall₂_map_right_iff]
    refine List.forall₂_same.2 fun body hbody => ⟨rfl, rfl, rfl, fun feeds => ?_⟩
    exact hlocal body hbody _ _ feeds fun name hname => h name (hname.imp_left fun hmem =>
      Node.mem_reads.2 (.inr ⟨body, hbody, hmem⟩))

/-- A node yields the same values in two environments that agree on what it reads. -/
theorem runNode_of_agree {n : Node} (hlocal : ∀ body ∈ n.bodies, Local body.2 (run m body.2))
    {env env' : Environment V} (h : ∀ name ∈ n.reads, lookup? env' name = lookup? env name) :
    (runNode m n (bodiesOf m n) env').toOption = (runNode m n (bodiesOf m n) env).toOption :=
  runNode_of_agreeBeside
    (fun body hbody => localBeside_nothing.2 (hlocal body hbody))
    fun name hname => h name (by simpa using hname)

section Sorted

variable {nodes : List Node} (halso : ∀ name, also name → name = "")
  (hlocal : ∀ n ∈ nodes, ∀ body ∈ n.bodies, LocalBeside also body.2 (run m body.2))
  (hsorted : Sorted nodes)

omit [Operand V] in
include halso hsorted in
/-- Neither what the first of some sorted nodes reads nor what its bodies may depend on besides is
yielded by any of them. -/
private theorem not_yielded {n : Node} {rest : List Node} (hnodes : nodes = n :: rest) {name : String}
    (hname : name ∈ n.reads ∨ also name) : name ∉ n.results ++ rest.flatMap Node.results := by
  subst hnodes
  rw [← List.flatMap_cons, List.mem_flatMap]
  rintro ⟨k, hk, hyields⟩
  rcases hname with hread | hempty
  · exact hsorted.1 name hread k hk hyields
  · exact Node.ne_empty_of_mem_results hyields (halso name hempty)

include halso hlocal hsorted

/-- What a run over sorted nodes binds: in the end every node has yielded what it computes. -/
theorem runNodes_ok (hnodup : (nodes.flatMap Node.results).Nodup)
    (h : runNodes m outer nodes b = .ok c) :
    (∀ name, name ∉ nodes.flatMap Node.results → c.lookup name = b.lookup name) ∧
      ∀ n ∈ nodes, ∃ values, runNode m n (bodiesOf m n) (c :: outer) = .ok values ∧
        Yields n.outputs values c := by
  induction nodes generalizing b with
  | nil =>
      cases h
      exact ⟨fun _ _ => rfl, by simp⟩
  | cons n rest ih =>
      obtain ⟨hlocalHere, hlocalRest⟩ := List.forall_mem_cons.1 hlocal
      have hsortedRest := hsorted.2
      rw [List.flatMap_cons] at hnodup ⊢
      obtain ⟨hdistinct, hnodupRest, hdisjoint⟩ := List.nodup_append.1 hnodup
      unfold runNodes at h
      rw [List.foldlM_cons] at h
      obtain ⟨bound, hbound, h⟩ := bind_eq_ok h
      obtain ⟨values, hvalues, hbound⟩ := bind_eq_ok hbound
      obtain ⟨hyields, hkept⟩ := bindOutputs_ok hdistinct hbound
      obtain ⟨hlater, hcomputed⟩ := ih hlocalRest hsortedRest hnodupRest h
      have hsame (name : String) (hnot : name ∉ n.results ++ rest.flatMap Node.results) :
          c.lookup name = b.lookup name := by
        rw [List.mem_append, not_or] at hnot
        rw [hlater name hnot.2, hkept name hnot.1]
      refine ⟨hsame, List.forall_mem_cons.2 ⟨⟨values, ?_, ?_⟩, hcomputed⟩⟩
      · -- nothing that the node reads is bound from here on
        rw [← toOption_eq_some, ← toOption_eq_some.2 hvalues]
        refine runNode_of_agreeBeside hlocalHere fun name hname => ?_
        rw [lookup?_cons, lookup?_cons, hsame name (not_yielded halso hsorted rfl hname)]
      · refine hyields.congr fun name hname hne => hlater name fun hmem => ?_
        exact hdisjoint name (Node.mem_results.2 ⟨hname, hne⟩) name hmem rfl

/-- Where every node yields what it computes, a run over sorted nodes binds just that. -/
theorem exists_runNodes
    (hcomputed : ∀ n ∈ nodes, ∃ values, runNode m n (bodiesOf m n) (c :: outer) = .ok values ∧
      Yields n.outputs values c)
    (hagree : ∀ name, name ∉ nodes.flatMap Node.results → b.lookup name = c.lookup name) :
    ∃ b', runNodes m outer nodes b = .ok b' ∧ ∀ name, b'.lookup name = c.lookup name := by
  induction nodes generalizing b with
  | nil => exact ⟨b, rfl, fun name => hagree name (by simp)⟩
  | cons n rest ih =>
      obtain ⟨hlocalHere, hlocalRest⟩ := List.forall_mem_cons.1 hlocal
      have hsortedRest := hsorted.2
      obtain ⟨⟨values, hvalues, hyields⟩, hcomputedRest⟩ := List.forall_mem_cons.1 hcomputed
      rw [List.flatMap_cons] at hagree
      have hnow : runNode m n (bodiesOf m n) (b :: outer) = .ok values := by
        rw [← toOption_eq_some, ← toOption_eq_some.2 hvalues]
        refine runNode_of_agreeBeside hlocalHere fun name hname => ?_
        rw [lookup?_cons, lookup?_cons, hagree name (not_yielded halso hsorted rfl hname)]
      obtain ⟨bound, hbound, hlookup⟩ := exists_bindOutputs n b hyields
      obtain ⟨b', hb', hfinal⟩ := ih (b := bound) hlocalRest hsortedRest hcomputedRest
        fun name hname => by
          rw [hlookup]
          split
          · rfl
          · rename_i hnot
            exact hagree name (by rw [List.mem_append, not_or]; exact ⟨hnot, hname⟩)
      refine ⟨b', ?_, hfinal⟩
      unfold runNodes
      rw [List.foldlM_cons, hnow, ok_bind, hbound]
      exact hb'

end Sorted

/-! ## Runs and solutions -/

variable {visible : String → Prop} {values : List V}

private theorem run_eq_some_iff_of_local (halso : ∀ name, also name → name = "") (h : g.Orderly)
    (hlocal : ∀ n ∈ g.nodes, ∀ body ∈ n.bodies, LocalBeside also body.2 (run m body.2)) :
    (run m g outer feeds).toOption = some values ↔
      ∃ b, Solves m g outer feeds b ∧ g.outputs.mapM (lookup? (b :: outer)) = some values := by
  obtain ⟨order, horder, hperm, hsorted⟩ := exists_sorted h
  have hlocal : ∀ n ∈ g.nodesAt order, ∀ body ∈ n.bodies, LocalBeside also body.2 (run m body.2) :=
    fun n hn => hlocal n (hperm.mem_iff.1 hn)
  have hresults (name : String) :
      name ∈ (g.nodesAt order).flatMap Node.results ↔ name ∈ g.results :=
    (hperm.flatMap_right Node.results).mem_iff
  rw [run_eq_runNodes]
  constructor
  · intro hrun
    obtain ⟨inputs, hinputs, hrun⟩ := bind_eq_ok (toOption_eq_some.1 hrun)
    rw [horder, ok_bind] at hrun
    obtain ⟨b, hb, hvalues⟩ := bind_eq_ok hrun
    obtain ⟨hfed, hinputLookup⟩ := bindInputs_ok hinputs
    have hnodup : ((g.nodesAt order).flatMap Node.results).Nodup :=
      (hperm.flatMap_right Node.results).nodup_iff.2 h.results
    obtain ⟨hkept, hcomputed⟩ := runNodes_ok halso hlocal hsorted hnodup hb
    have hother (name : String) (hnot : name ∉ g.results) : b.lookup name =
        if name ∈ g.inputs then feeds name else none := by
      rw [hkept name (fun hmem => hnot ((hresults name).1 hmem)), hinputLookup]
      rfl
    refine ⟨b, ⟨fun name hname => ⟨hfed name hname, ?_⟩,
      fun n hn => hcomputed n (hperm.mem_iff.2 hn), fun name hname => ?_⟩, ?_⟩
    · rw [hother name fun hmem => h.apart name hmem hname, if_pos hname]
    · by_contra hdef
      rw [defines_iff, not_or] at hdef
      rw [hother name hdef.2, if_neg hdef.1] at hname
      cases hname
    · rw [← toOption_eq_some.2 hvalues, toOption_mapM]
      simp only [toOption_lookup]
  · rintro ⟨b, hb, hvalues⟩
    obtain ⟨inputs, hinputs⟩ := exists_bindInputs g feeds [] fun name hname =>
      (hb.fed name hname).1
    obtain ⟨-, hinputLookup⟩ := bindInputs_ok hinputs
    obtain ⟨c, hc, hlookup⟩ : ∃ c, runNodes m outer (g.nodesAt order) inputs = .ok c ∧
        ∀ name, c.lookup name = b.lookup name := by
      refine exists_runNodes halso hlocal hsorted (fun n hn => hb.computed n (hperm.mem_iff.1 hn))
        fun name hname => ?_
      rw [hinputLookup]
      split
      · rename_i hinput
        exact (hb.fed name hinput).2.symm
      · rename_i hinput
        refine (hb.lookup_eq_none ?_).symm
        rw [Bool.eq_false_iff, ne_eq, defines_iff, not_or]
        exact ⟨hinput, fun hmem => hname ((hresults name).2 hmem)⟩
    rw [hinputs, horder]
    simp only [toOption_bind, toOption_ok, Option.bind_some, hc, toOption_mapM, toOption_lookup]
    rw [← hvalues]
    exact mapM_congr fun name _ => by rw [lookup?_cons, lookup?_cons, hlookup]

private theorem exists_left {α β : Type} {R : α → β → Prop} {l : List α} {l' : List β}
    (h : List.Forall₂ R l l') : ∀ b ∈ l', ∃ a ∈ l, R a b := by
  induction h with
  | nil => simp
  | cons hab _ ih =>
      refine List.forall_mem_cons.2 ⟨⟨_, List.mem_cons_self, hab⟩, fun b hb => ?_⟩
      obtain ⟨a, ha, hab⟩ := ih b hb
      exact ⟨a, List.mem_cons_of_mem _ ha, hab⟩

private theorem exists_right {α β : Type} {R : α → β → Prop} {l : List α} {l' : List β}
    (h : List.Forall₂ R l l') : ∀ a ∈ l, ∃ b ∈ l', R a b :=
  exists_left h.flip

theorem mapM_eq_of_forall₂ {α β : Type} {f f' : α → Option β} {l l' : List α}
    (h : List.Forall₂ (fun a a' => f' a' = f a) l l') : l'.mapM f' = l.mapM f := by
  induction h with
  | nil => rfl
  | cons ha _ ih => rw [List.mapM_cons, List.mapM_cons, ha, ih]

/-- Two nodes with the same outputs that yield the same values in two environments. -/
def YieldSame (m : Machine V) (env env' : Environment V) (n n' : Node) : Prop :=
  n'.outputs = n.outputs ∧
    (runNode m n' (bodiesOf m n') env').toOption = (runNode m n (bodiesOf m n) env).toOption

/-- Whether bindings bind exactly what a graph defines. -/
def Binds (g : Graph) (b : Bindings V) : Prop :=
  ∀ name, (b.lookup name).isSome = g.defines name

section Congruence

variable {h : Graph} {visible' : String → Prop} {outer' : Environment V}
  (hinputs : h.inputs = g.inputs) (hdefines : ∀ name, h.defines name = g.defines name)
  (hnodes : ∀ b, Binds g b →
    List.Forall₂ (YieldSame m (b :: outer) (b :: outer')) g.nodes h.nodes)

include hinputs hdefines hnodes

/-- Graphs with the same equations have the same solutions. -/
private theorem solves_iff : Solves m h outer' feeds b ↔ Solves m g outer feeds b := by
  constructor
  · intro hb
    have hsame := hnodes b fun name => (hb.isSome_lookup name).trans (hdefines name)
    refine ⟨hinputs ▸ hb.fed, fun n hn => ?_, fun name hname => hdefines name ▸ hb.only name hname⟩
    obtain ⟨k, hk, houtputs, hrun⟩ := exists_right hsame n hn
    obtain ⟨values, hvalues, hyields⟩ := hb.computed k hk
    refine ⟨values, ?_, houtputs ▸ hyields⟩
    rw [← toOption_eq_some, ← hrun, hvalues, toOption_ok]
  · intro hb
    have hsame := hnodes b hb.isSome_lookup
    refine ⟨hinputs ▸ hb.fed, fun k hk => ?_,
      fun name hname => (hdefines name).symm ▸ hb.only name hname⟩
    obtain ⟨n, hn, houtputs, hrun⟩ := exists_left hsame k hk
    obtain ⟨values, hvalues, hyields⟩ := hb.computed n hn
    refine ⟨values, ?_, houtputs ▸ hyields⟩
    rw [← toOption_eq_some, hrun, hvalues, toOption_ok]

variable (houtputs : ∀ b, Binds g b → List.Forall₂
    (fun name name' => lookup? (b :: outer') name' = lookup? (b :: outer) name) g.outputs h.outputs)

include houtputs

private theorem run_congr_of_local (halso : ∀ name, also name → name = "") (hg : g.Orderly)
    (hh : h.Orderly)
    (hlocal : ∀ n ∈ g.nodes, ∀ body ∈ n.bodies, LocalBeside also body.2 (run m body.2))
    (hlocal' : ∀ n ∈ h.nodes, ∀ body ∈ n.bodies, LocalBeside also body.2 (run m body.2)) :
    (run m h outer' feeds).toOption = (run m g outer feeds).toOption := by
  refine Option.ext fun values => ?_
  rw [run_eq_some_iff_of_local halso hg hlocal, run_eq_some_iff_of_local halso hh hlocal']
  refine exists_congr fun b => ?_
  rw [solves_iff hinputs hdefines hnodes]
  refine and_congr_right fun hb => ?_
  rw [mapM_eq_of_forall₂ (houtputs b hb.isSome_lookup)]

end Congruence

/-- Whether the graphs of a tree are orderly and absent outputs are among the names in `also`. -/
abbrev OrderlyTree (also : String → Prop) : Graph → Prop :=
  Everywhere (fun _ taken => taken) (fun _ g => g.Orderly ∧ ("" ∈ g.outputs → also ""))
    fun _ => True

/-- What a graph does depends on the names that it takes from outside, and on those in `also`. -/
theorem run_localBeside (halso : ∀ name, also name → name = "") (h : OrderlyTree also g) :
    LocalBeside also g (run m g) := by
  unfold OrderlyTree at h
  generalize (fun _ => True : String → Prop) = anywhere at h
  induction h with
  | @intro _ g here _ ih =>
      intro env env' feeds hsame
      have hagree {b : Bindings V} (hb : Binds g b) {name : String}
          (hused : g.Uses name ∨ also name) :
          lookup? (b :: env') name = lookup? (b :: env) name := by
        rw [lookup?_cons, lookup?_cons]
        cases hdef : g.defines name with
        | true =>
            obtain ⟨value, hvalue⟩ := Option.isSome_iff_exists.1 ((hb name).trans hdef)
            rw [hvalue, Option.some_or, Option.some_or]
        | false =>
            rw [hsame name (hused.imp_left fun hused => mem_outerReferences_iff.2 ⟨hdef, hused⟩)]
      refine run_congr_of_local rfl (fun _ => rfl) (fun b hb => ?_) (fun b hb => ?_) halso here.1
        here.1 ih ih
      · exact List.forall₂_same.2 fun n hn => ⟨rfl, runNode_of_agreeBeside (ih n hn)
          fun name hname => hagree hb (hname.imp_left fun hread => .inr ⟨n, hn, hread⟩)⟩
      · refine List.forall₂_same.2 fun name hname => hagree hb ?_
        by_cases hempty : name = ""
        · subst hempty
          exact .inr (here.2 hname)
        · exact .inl (.inl ⟨hname, hempty⟩)

/-- In a well-formed tree nothing else is looked up than what has a name. -/
private theorem orderlyTree_of_wellformedTree (h : WellformedTree visible g) :
    OrderlyTree (fun _ => False) g := by
  unfold OrderlyTree
  generalize (fun _ => True : String → Prop) = anywhere
  induction h with
  | intro here _ ih =>
      exact .intro ⟨here.orderly, fun hout => here.ne_empty_of_mem_outputs hout rfl⟩ ih

/-- The graphs of a valid tree are orderly. Nothing is known of absent outputs. -/
theorem orderlyTree_of_scopedTree (h : ScopedTree visible g)
    (hkeyed : KeyedTree g) : OrderlyTree (· = "") g := by
  unfold OrderlyTree KeyedTree at *
  generalize (fun _ => True : String → Prop) = anywhere at hkeyed ⊢
  induction h with
  | intro here _ ih =>
      exact .intro ⟨here.orderly hkeyed.here, fun _ => rfl⟩ fun n hn body hbody =>
        ih n hn body hbody (hkeyed.body hn hbody)

/-- What a graph does depends on the names that it takes from outside. -/
theorem run_local (h : WellformedTree visible g) : Local g (run m g) :=
  localBeside_nothing.1 (run_localBeside (fun _ => False.elim) (orderlyTree_of_wellformedTree h))

/-- A run of an orderly tree has a result exactly when the equations have a solution. -/
theorem run_eq_some_iff_of_orderly (halso : ∀ name, also name → name = "") (h : OrderlyTree also g) :
    (run m g outer feeds).toOption = some values ↔
      ∃ b, Solves m g outer feeds b ∧ g.outputs.mapM (lookup? (b :: outer)) = some values :=
  run_eq_some_iff_of_local halso h.here.1 fun _ hn _ hbody =>
    run_localBeside halso (h.body hn hbody)

/-- A run has a result exactly when the equations have a solution. -/
theorem run_eq_some_iff (h : WellformedTree visible g) :
    (run m g outer feeds).toOption = some values ↔
      ∃ b, Solves m g outer feeds b ∧ g.outputs.mapM (lookup? (b :: outer)) = some values :=
  run_eq_some_iff_of_orderly (fun _ => False.elim) (orderlyTree_of_wellformedTree h)

/-- Orderly trees with the same equations do the same. -/
theorem run_congr_of_orderly {h : Graph} {outer' : Environment V}
    (halso : ∀ name, also name → name = "") (hg : OrderlyTree also g) (hh : OrderlyTree also h)
    (hinputs : h.inputs = g.inputs) (hdefines : ∀ name, h.defines name = g.defines name)
    (hnodes : ∀ b, Binds g b →
      List.Forall₂ (YieldSame m (b :: outer) (b :: outer')) g.nodes h.nodes)
    (houtputs : ∀ b, Binds g b → List.Forall₂
      (fun name name' => lookup? (b :: outer') name' = lookup? (b :: outer) name)
      g.outputs h.outputs) :
    (run m h outer' feeds).toOption = (run m g outer feeds).toOption :=
  run_congr_of_local hinputs hdefines hnodes houtputs halso hg.here.1 hh.here.1
    (fun _ hn _ hbody => run_localBeside halso (hg.body hn hbody))
    fun _ hn _ hbody => run_localBeside halso (hh.body hn hbody)

/-- Graphs with the same equations do the same. -/
theorem run_congr {h : Graph} {visible' : String → Prop} {outer' : Environment V}
    (hg : WellformedTree visible g) (hh : WellformedTree visible' h) (hinputs : h.inputs = g.inputs)
    (hdefines : ∀ name, h.defines name = g.defines name)
    (hnodes : ∀ b, Binds g b →
      List.Forall₂ (YieldSame m (b :: outer) (b :: outer')) g.nodes h.nodes)
    (houtputs : ∀ b, Binds g b → List.Forall₂
      (fun name name' => lookup? (b :: outer') name' = lookup? (b :: outer) name)
      g.outputs h.outputs) :
    (run m h outer' feeds).toOption = (run m g outer feeds).toOption :=
  run_congr_of_orderly (fun _ => False.elim) (orderlyTree_of_wellformedTree hg)
    (orderlyTree_of_wellformedTree hh) hinputs hdefines hnodes houtputs

end TensorGraph.Evaluation
