import TensorGraph.Execution.Value
import TensorGraph.Proofs.Copying
import TensorGraph.Proofs.LegiblePasses
import TensorGraph.Proofs.ReadBack

/-!
# Graphs that are written and read again

What is read where a graph was written is the graph with other tables: each holds what was known of the
values that are produced in the graph, and an entry for every input and output. An input or output of
which nothing is known gets an entry all the same, one that says so. It shows when the graph is written
once more, if a graph inside produces a value of that name, of which nothing is known either. A valid
graph has no such value.

## Main results

* `Graph.toJson_reread_iff` -- when a graph is written in the same form the second time.
* `Graph.ClearTree.of_scopedTree` -- it is if names do not hide each other.
* `Graph.ofJson_toJson_reached` -- what passes make of a graph that was read can be read again.
-/

namespace TensorGraph.Graph

open Evaluation (Bindings execute)

variable {enclosing : List Graph} {g : Graph}

/-! ## What is known in the graph that is read -/

theorem name_of_info? {name : String} {info : ValueInfo} (h : g.info? enclosing name = some info) :
    info.name = name := by
  obtain ⟨scope, -, hinfo⟩ := List.exists_of_findSome?_eq_some h
  simpa using List.find?_some hinfo

/-- What is written of the values that nodes produce is what is known of them. -/
theorem mem_producedInfos {info : ValueInfo} :
    info ∈ g.producedInfos enclosing ↔
      info.name ∈ g.results ∧ info.name ∉ g.inputs ∧ info.name ∉ g.outputs ∧
        g.info? enclosing info.name = some info := by
  unfold producedInfos
  simp only [List.mem_flatMap, List.mem_filterMap, Prod.exists]
  constructor
  · rintro ⟨n, i, -, output, -, hinfo⟩
    split at hinfo
    · cases hinfo
    · rename_i hinner
      split at hinfo
      · rename_i hplace
        obtain rfl := name_of_info? hinfo
        simp only [isInput, isOutput, Bool.or_eq_true, List.contains_eq_mem, decide_eq_true_eq,
          not_or] at hinner
        exact ⟨mem_results_of_producerPlace? hplace, hinner.1, hinner.2, hinfo⟩
      · cases hinfo
  · rintro ⟨hresult, hinput, houtput, hinfo⟩
    obtain ⟨n, hn, hyields⟩ := mem_results.1 hresult
    have hplace : (g.producerPlace? info.name).isSome = true :=
      List.findIdx?_isSome.trans (List.any_eq_true.2 ⟨n, hn, Node.produces_iff.2 hyields⟩)
    obtain ⟨place, hplace⟩ := Option.isSome_iff_exists.1 hplace
    obtain ⟨hlt, hproduces, -⟩ := List.findIdx?_eq_some_iff_getElem.1 hplace
    refine ⟨g.nodes[place], place, List.mem_zipIdx_iff_getElem?.2 (List.getElem?_eq_getElem hlt),
      info.name, (Node.mem_results.1 (Node.produces_iff.1 hproduces)).1, ?_⟩
    rw [if_neg (by simp [isInput, isOutput, hinput, houtput]), if_pos hplace]
    exact hinfo

/-- The table that is read: what comes in and goes out has the entry that it had or one that says
nothing, and a value that is produced has the entry that was found for it. -/
theorem get?_writtenInfos (name : String) :
    (writtenInfos enclosing g).get? name =
      if name ∈ g.inputs ∨ name ∈ g.outputs then some (g.infoOf name)
      else if name ∈ g.results then g.info? enclosing name else none := by
  unfold writtenInfos InfoTable.ofList inputInfos outputInfos
  simp only [List.foldl_append, get?_foldl_set_infoOf]
  by_cases houtput : name ∈ g.outputs
  · simp [houtput]
  by_cases hinput : name ∈ g.inputs
  · simp [houtput, hinput]
  simp only [houtput, hinput, or_false, if_false]
  by_cases hknown : ∃ info ∈ g.producedInfos enclosing, info.name = name
  · obtain ⟨info, hinfo, rfl⟩ := hknown
    obtain ⟨hresult, -, -, hfound⟩ := mem_producedInfos.1 hinfo
    rw [if_pos hresult, hfound]
    refine InfoTable.get?_foldl_set_of_mem hinfo rfl (fun other hother hname => ?_) _
    have hsame := (mem_producedInfos.1 hother).2.2.2
    rw [hname, hfound] at hsame
    exact (Option.some.inj hsame).symm
  · rw [InfoTable.get?_foldl_set_of_not_mem fun info hinfo hname => hknown ⟨info, hinfo, hname⟩,
      InfoTable.get?_empty]
    split
    · rename_i hresult
      cases hfound : g.info? enclosing name with
      | none => rfl
      | some info =>
          obtain rfl := name_of_info? hfound
          exact absurd ⟨info, mem_producedInfos.2 ⟨hresult, hinput, houtput, hfound⟩, rfl⟩ hknown
    · rfl

/-- The graphs that are read where graphs were written, each of which stands inside of the next. -/
def rereadAll : List Graph → List Graph
  | [] => []
  | g :: rest => g.reread rest :: rereadAll rest

/-- Of a value of which nothing was known, nothing is known in the graphs that are read either, unless
it comes in or goes out somewhere. -/
theorem findSome?_rereadAll_eq_none_iff {scopes : List Graph} {value : String}
    (h : (scopes.findSome? fun scope => scope.infos.get? value) = none) :
    ((rereadAll scopes).findSome? fun scope => scope.infos.get? value) = none ↔
      ∀ scope ∈ scopes, value ∉ scope.inputs ∧ value ∉ scope.outputs := by
  induction scopes with
  | nil => simp [rereadAll]
  | cons scope rest ih =>
      have hunknown : scope.info? rest value = none := h
      have hrest := (List.forall_mem_cons.1 (List.findSome?_eq_none_iff.1 h)).2
      rw [rereadAll, List.findSome?_eq_none_iff, List.forall_mem_cons, ← List.findSome?_eq_none_iff,
        ih (List.findSome?_eq_none_iff.2 hrest), List.forall_mem_cons]
      refine and_congr_left fun _ => ?_
      unfold reread
      rw [infos_retabled, get?_writtenInfos, hunknown]
      simp [not_or]

/-! ## What is written once more -/

/-- Whether no value that a graph produces, and of which nothing is known, comes in or goes out around
the graph. -/
def Clear (enclosing : List Graph) (g : Graph) : Prop :=
  ∀ value ∈ g.results, value ∉ g.inputs → value ∉ g.outputs → g.info? enclosing value = none →
    ∀ scope ∈ enclosing, value ∉ scope.inputs ∧ value ∉ scope.outputs

instance (enclosing : List Graph) (g : Graph) : Decidable (Clear enclosing g) :=
  inferInstanceAs (Decidable (∀ value ∈ g.results, _))

/-- Whether every graph of a tree is clear of the graphs around it. -/
abbrev ClearTree : List Graph → Graph → Prop := EveryScope Clear

/-- In a clear graph that is read, a value that is produced there is known as it was. -/
theorem Clear.info?_reread (h : Clear enclosing g) {value : String} (hresult : value ∈ g.results)
    (hinput : value ∉ g.inputs) (houtput : value ∉ g.outputs) :
    (g.reread enclosing).info? (rereadAll enclosing) value = g.info? enclosing value := by
  cases hinfo : g.info? enclosing value with
  | none =>
      exact (findSome?_rereadAll_eq_none_iff hinfo).2
        (List.forall_mem_cons.2 ⟨⟨hinput, houtput⟩, h value hresult hinput houtput hinfo⟩)
  | some info =>
      have hhere : (g.reread enclosing).infos.get? value = some info := by
        unfold reread
        rw [infos_retabled, get?_writtenInfos, if_neg (not_or.2 ⟨hinput, houtput⟩), if_pos hresult,
          hinfo]
      unfold info?
      rw [List.findSome?_cons, hhere]

theorem infoOf_reread {name : String} (h : name ∈ g.inputs ∨ name ∈ g.outputs) :
    (g.reread enclosing).infoOf name = g.infoOf name := by
  rw [infoOf, reread, infos_retabled, get?_writtenInfos, if_pos h]
  rfl

/-- A clear tree is written as it was. -/
theorem ClearTree.toJsonIn_reread (h : ClearTree enclosing g) :
    (g.reread enclosing).toJsonIn (rereadAll enclosing) = g.toJsonIn enclosing := by
  induction h with
  | intro here _ ih =>
      exact toJsonIn_retabled (fun name => infoOf_reread) (fun value => here.info?_reread) ih

/-- A tree that stays the same when it is written and read once more is clear. -/
theorem ClearTree.of_reread_reread
    (h : (g.reread enclosing).reread (rereadAll enclosing) = g.reread enclosing) :
    ClearTree enclosing g := by
  induction g using bodyInduction generalizing enclosing with
  | step g ih =>
      refine .intro (fun value hresult hinput houtput hunknown => ?_) fun n hn body hbody =>
        ih n hn body hbody ?_
      · have hinfos := congrArg (fun k : Graph => k.infos.get? value) h
        simp only [reread, infos_retabled, get?_writtenInfos, inputs_retabled, outputs_retabled,
          results_retabled, hinput, houtput, hresult, hunknown, or_self, if_false, if_true] at hinfos
        have hscopes : ((rereadAll (g :: enclosing)).findSome? fun scope => scope.infos.get? value) =
            none := hinfos
        rw [findSome?_rereadAll_eq_none_iff hunknown, List.forall_mem_cons] at hscopes
        exact hscopes.2
      · have hnodes := congrArg nodes h
        simp only [reread, nodes_retabled, List.map_map, List.map_inj_left, Function.comp_apply,
          Node.recast_recast] at hnodes
        exact Node.recast_eq_recast_iff.1 (hnodes n hn) body hbody

/-- What is read of a legible graph is written like the graph itself just if the tree is clear. -/
theorem toJson_reread_iff (hg : g.Legible) : (g.reread []).toJson = g.toJson ↔ ClearTree [] g := by
  refine ⟨fun hsame => .of_reread_reread ?_, ClearTree.toJsonIn_reread⟩
  have hread := ofJson_toJson hg
  rw [← hsame, ofJson_toJson (legible_ofJson hread)] at hread
  exact Except.ok.inj hread

/-! ## Valid trees -/

/-- A tree whose names do not hide each other is clear. -/
theorem ClearTree.of_scopedTree {visible : String → Prop} (hg : ScopedTree visible g)
    (hfronts : ∀ scope ∈ enclosing, ∀ value, value ∈ scope.inputs ∨ value ∈ scope.outputs →
      visible value) : ClearTree enclosing g := by
  induction g using bodyInduction generalizing enclosing visible with
  | step g ih =>
      exact .intro (fun value hresult _ _ _ => hg.here.not_fronts_of_mem_results hfronts hresult)
        fun n hn body hbody => ih n hn body hbody (hg.body hn hbody) (hg.here.seenIn_of_fronts hfronts)

theorem IsValid.clearTree (h : g.IsValid) : ClearTree [] g :=
  .of_scopedTree h.scopedTree (by simp)

/-! ## Read, changed, written and read -/

/-- What passes make of a graph that was read is written in a form that is read again. It is the same
form the second time just if the tree is clear, as valid trees are, and what is read does the same. -/
theorem ofJson_toJson_reached {j : Option Json} {h : Graph} (hread : ofJson j = .ok g)
    (hr : Pass.Reached g h) :
    ∃ k, ofJson (some h.toJson) = .ok k ∧ (k.toJson = h.toJson ↔ ClearTree [] h) ∧
      (h.IsValid → k.toJson = h.toJson) ∧
      ∀ {V : Type} [Operand V] (budget : Nat) (feeds : Bindings V),
        execute (.standard budget) k feeds = execute (.standard budget) h feeds := by
  have hlegible := hr.legible (legible_ofJson hread)
  have hsame := toJson_reread_iff hlegible
  refine ⟨h.reread [], ofJson_toJson hlegible, hsame, fun hvalid => hsame.2 hvalid.clearTree, ?_⟩
  intro V _ budget feeds
  exact Evaluation.execute_retabled (Evaluation.Machine.standard_sparesBodies budget) _ _ h feeds

/-- A branch that produces the value of a given name. -/
private def producing (value : String) : Graph where
  outputs := ["b"]
  nodes := [
    { name := "clip", op := "Relu", inputs := ["x"], outputs := [value] },
    { name := "bend", op := "Relu", inputs := [value], outputs := ["b"] }]

/-- A branch that hands on `w`, and inside of which a value is produced. -/
private def forwarding (value : String) : Graph where
  outputs := ["o"]
  nodes := [
    { name := "hand", op := "Identity", inputs := ["w"], outputs := ["o"] },
    { name := "inner", op := "If", inputs := ["c"], outputs := ["t"]
      attributes := [("then_branch", .body (producing value)), ("else_branch", .body (producing value))] }]

/-- A graph with such branches, where `w` is what `u` is and the shape of `w` is known. -/
def nested (value : String) : Graph where
  inputs := ["x", "c"]
  outputs := ["r"]
  infos := .ofList [{ name := "w", shape := some [some (.ofNat 2), some (.ofNat 3)] }]
  nodes := [
    { name := "mend", op := "Relu", inputs := ["x"], outputs := ["u"] },
    { name := "pass", op := "Identity", inputs := ["u"], outputs := ["w"] },
    { name := "choice", op := "If", inputs := ["c"], outputs := ["r"]
      attributes := [("then_branch", .body (forwarding value)), ("else_branch", .body (forwarding value))] }]

private theorem legible_nested (value : String) : (nested value).Legible := by
  have hinner : (producing value).Legible := by
    simp [producing, legible_iff, Node.legible_iff]
  have houter : (forwarding value).Legible := by
    simp [forwarding, legible_iff, Node.legible_iff, Attributes.Legible.branches hinner hinner]
  refine legible_iff.2 ⟨InfoTable.Legible.ofList ?_, by
    simp [nested, Node.legible_iff, Attributes.Legible.branches houter houter]⟩
  have hsizes : ∀ d, some d ∈ [some (Number.ofNat 2), some (Number.ofNat 3)] → d.Size := by
    simp [Number.size_ofNat]
  exact List.forall_mem_singleton.2 ⟨by simp, fun dims hdims => Option.some.inj hdims ▸ hsizes⟩

/-- The graph that is read where `nested` is written, without identities. -/
def stripped (value : String) : Graph := (Pass.identity.run .root 0 ((nested value).reread [])).graph

private theorem reached_stripped (value : String) :
    Pass.Reached ((nested value).reread []) (stripped value) :=
  .run (by simp [Pass.registry]) 0 .start

theorem ofJson_toJson_reached_stripped :
    ofJson (some (nested "v").toJson) = .ok ((nested "v").reread []) ∧
      Pass.Reached ((nested "v").reread []) (stripped "v") ∧ (stripped "v").IsValid ∧
      (stripped "v").walk.map Graph.outputs = [["b"], ["b"], ["u"], ["b"], ["b"], ["u"], ["r"]] ∧
      ∃ k, ofJson (some (stripped "v").toJson) = .ok k ∧ k.toJson = (stripped "v").toJson ∧
        ∀ (budget : Nat) (feeds : Bindings (Value Float)),
          execute (.standard budget) k feeds = execute (.standard budget) (stripped "v") feeds := by
  have hread := ofJson_toJson (legible_nested "v")
  have hvalid : (stripped "v").IsValid := by
    unfold IsValid
    decide +kernel
  obtain ⟨k, hk, -, hsame, hexecute⟩ := ofJson_toJson_reached hread (reached_stripped "v")
  exact ⟨hread, reached_stripped "v", hvalid, by decide +kernel, k, hk, hsame hvalid, hexecute⟩

/-- Where the branches inside produce `u` they are not clear: what `forwarding` yields is `u` when its
identity is gone, and nothing is known of it. -/
theorem not_ofJson_toJson_reached :
    ofJson (some (nested "u").toJson) = .ok ((nested "u").reread []) ∧
      Pass.Reached ((nested "u").reread []) (stripped "u") ∧
      ∃ k, ofJson (some (stripped "u").toJson) = .ok k ∧ k.toJson ≠ (stripped "u").toJson := by
  have hread := ofJson_toJson (legible_nested "u")
  have hlegible := (reached_stripped "u").legible (legible_ofJson hread)
  refine ⟨hread, reached_stripped "u", _, ofJson_toJson hlegible, fun hsame => ?_⟩
  have hclear := (toJson_reread_iff hlegible).1 hsame
  have hinner : ∀ n ∈ (stripped "u").nodes, ∀ outer ∈ n.bodies, ∀ m ∈ outer.2.nodes,
      ∀ inner ∈ m.bodies, Clear [outer.2, stripped "u"] inner.2 :=
    fun n hn outer houter m hm inner hinner => ((hclear.body hn houter).body hm hinner).here
  revert hinner
  decide +kernel

end TensorGraph.Graph
