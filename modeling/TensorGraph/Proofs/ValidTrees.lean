import Mathlib.Data.List.Pairwise
import TensorGraph.Graph.Validity
import TensorGraph.Proofs.Bodies

/-!
# Valid graphs are tidy

What the checks on names say of a graph is that it is `Scoped`: every name is defined once, and
every name that is used is defined. A tree of such graphs is tidy, since a graph mentions nothing
that is not defined in it or around it.

## Main results

* `Graph.IsValid.scopedTree` -- every graph of a valid tree is scoped.
* `Graph.Scoped.mem_scopeIssues` -- and back, what is wrong with a scoped graph is wrong with an
  operator.
* `Graph.IsValid.tidyIn` -- a valid graph is tidy in the surroundings of a root.
-/

namespace TensorGraph

namespace Graph

/-- Whether all attributes of all nodes in a tree have distinct keys. -/
abbrev KeyedTree : Graph → Prop :=
  Everywhere (fun _ taken => taken) (fun _ g => ∀ n ∈ g.nodes, n.Keyed) (fun _ => True)

/-- The names that bodies of a graph see, when `visible` are those seen from the graph. -/
def seenIn (g : Graph) (visible : String → Prop) (value : String) : Prop :=
  visible value ∨ g.defines value = true

/-- Every name has one definition, in the graph or around it, and the nodes have an order. -/
structure Scoped (visible : String → Prop) (g : Graph) : Prop where
  /-- No two nodes have one name. -/
  names : (g.nodes.map Node.name).Nodup
  /-- No value is yielded twice. -/
  results : g.results.Nodup
  /-- No value that is yielded is an input. -/
  apart : ∀ value ∈ g.results, value ∉ g.inputs
  /-- No input is defined around the graph. -/
  newInputs : ∀ value ∈ g.inputs, ¬ visible value
  /-- Nor is a value that is yielded. -/
  newResults : ∀ value ∈ g.results, ¬ visible value
  /-- What a node takes in is defined. -/
  taken : ∀ n ∈ g.nodes, ∀ value ∈ n.inputs, value ≠ "" → g.seenIn visible value
  /-- What the graph yields is defined. -/
  yielded : ∀ value ∈ g.outputs, g.seenIn visible value
  /-- The nodes have an order. -/
  ordered : ∃ order, g.topologicalOrder = .ok order

/-- Every graph of a tree is scoped. -/
abbrev ScopedTree : (String → Prop) → Graph → Prop := Everywhere seenIn Scoped

/-! ## Definitions -/

/-- What the check of definitions does with one output. -/
private def noteOutput (g : Graph) (n : Node) :
    List Problem × List (String × String) → String → List Problem × List (String × String) :=
  fun (found, produced) output =>
    if output = "" then (found, produced)
    else
      let found := match produced.lookup output with
        | some earlier => found ++ [Problem.duplicateProducer n.name output earlier]
        | none => if g.isInput output then found ++ [Problem.inputShadowed n.name output] else found
      (found, (output, n.name) :: produced)

private theorem noteOutput_ok {g : Graph} {n : Node} {found : List Problem}
    {produced : List (String × String)} {output : String} (hne : output ≠ "")
    (h : (noteOutput g n (found, produced) output).1 = []) :
    found = [] ∧ produced.lookup output = none ∧ output ∉ g.inputs := by
  unfold noteOutput at h
  simp only [if_neg hne] at h
  split at h
  · simp at h
  · rename_i hnone
    split at h
    · simp at h
    · rename_i hinput
      exact ⟨h, hnone, by simpa [isInput] using hinput⟩

/-- What the check of definitions has established when it has found nothing in some outputs. -/
private theorem noteOutputs_ok {g : Graph} {n : Node} {outputs : List String} {found : List Problem}
    {produced : List (String × String)}
    (h : (outputs.foldl (noteOutput g n) (found, produced)).1 = []) :
    found = [] ∧ (outputs.filter (· != "")).Nodup ∧
      (∀ value ∈ outputs.filter (· != ""), produced.lookup value = none ∧ value ∉ g.inputs) ∧
      ∀ value, (outputs.foldl (noteOutput g n) (found, produced)).2.lookup value = none →
        produced.lookup value = none ∧ value ∉ outputs.filter (· != "") := by
  induction outputs generalizing found produced with
  | nil => exact ⟨h, .nil, by simp, fun value hvalue => ⟨hvalue, by simp⟩⟩
  | cons output rest ih =>
      rw [List.foldl_cons] at h ⊢
      by_cases hne : output = ""
      · have hskip : noteOutput g n (found, produced) output = (found, produced) := by
          simp [noteOutput, hne]
        rw [hskip] at h ⊢
        simpa [hne] using ih h
      · obtain ⟨next, hnext⟩ : ∃ next, noteOutput g n (found, produced) output =
            (next, (output, n.name) :: produced) := by
          simp only [noteOutput, if_neg hne]
          exact ⟨_, rfl⟩
        rw [hnext] at h ⊢
        obtain ⟨hfound, hnodup, hnew, hlater⟩ := ih h
        obtain ⟨hfound, hnone, hinput⟩ := noteOutput_ok hne (by rw [hnext]; exact hfound)
        have hlookup : ∀ value, ((output, n.name) :: produced).lookup value = none →
            produced.lookup value = none ∧ value ≠ output := by
          intro value hvalue
          rw [List.lookup_cons] at hvalue
          split at hvalue
          · cases hvalue
          · rename_i hbeq
            exact ⟨hvalue, by simpa using hbeq⟩
        have hfilter : (output :: rest).filter (· != "") = output :: rest.filter (· != "") := by
          simp [hne]
        rw [hfilter]
        refine ⟨hfound, List.nodup_cons.2 ⟨fun hmem => ?_, hnodup⟩, fun value hvalue => ?_,
          fun value hvalue => ?_⟩
        · exact (hlookup output (hnew output hmem).1).2 rfl
        · rcases List.mem_cons.1 hvalue with rfl | hvalue
          · exact ⟨hnone, hinput⟩
          · exact ⟨(hlookup value (hnew value hvalue).1).1, (hnew value hvalue).2⟩
        · obtain ⟨hold, hrest⟩ := hlater value hvalue
          obtain ⟨hold, hneq⟩ := hlookup value hold
          exact ⟨hold, fun hmem => (List.mem_cons.1 hmem).elim hneq hrest⟩

/-- What the check of definitions has established when it has found nothing. -/
private theorem definitionProblems_ok {g : Graph} {nodes : List Node} {seen : List String}
    {produced : List (String × String)} (h : g.definitionProblems seen produced nodes = []) :
    (nodes.map Node.name).Nodup ∧ (∀ n ∈ nodes, n.name ∉ seen) ∧
      (nodes.flatMap Node.results).Nodup ∧
      ∀ value ∈ nodes.flatMap Node.results, produced.lookup value = none ∧ value ∉ g.inputs := by
  induction nodes generalizing seen produced with
  | nil => simp
  | cons n rest ih =>
      have hstep : g.definitionProblems seen produced (n :: rest) =
          (if seen.contains n.name then [Problem.duplicateNodeName n.name] else []) ++
            (n.outputs.foldl (noteOutput g n) ([], produced)).1 ++
            g.definitionProblems (n.name :: seen)
              (n.outputs.foldl (noteOutput g n) ([], produced)).2 rest := rfl
      rw [hstep, List.append_eq_nil_iff, List.append_eq_nil_iff] at h
      obtain ⟨⟨hseen, hfound⟩, hrest⟩ := h
      obtain ⟨-, hnodup, hnew, hlater⟩ := noteOutputs_ok hfound
      obtain ⟨hnames, hunseen, hresults, hvalues⟩ := ih hrest
      have hseen : n.name ∉ seen := by
        intro hmem
        simp [hmem] at hseen
      refine ⟨?_, ?_, ?_, ?_⟩
      · rw [List.map_cons, List.nodup_cons]
        refine ⟨fun hmem => ?_, hnames⟩
        obtain ⟨m, hm, hname⟩ := List.mem_map.1 hmem
        exact hunseen m hm (by simp [hname])
      · intro m hm
        rcases List.mem_cons.1 hm with rfl | hm
        · exact hseen
        · exact fun hmem => hunseen m hm (List.mem_cons_of_mem _ hmem)
      · rw [List.flatMap_cons]
        refine List.nodup_append.2 ⟨hnodup, hresults, ?_⟩
        rintro value hvalue other hother rfl
        exact (hlater value (hvalues value hother).1).2 hvalue
      · intro value hvalue
        rw [List.flatMap_cons, List.mem_append] at hvalue
        rcases hvalue with hvalue | hvalue
        · exact hnew value hvalue
        · exact ⟨(hlater value (hvalues value hvalue).1).1, (hvalues value hvalue).2⟩

/-- The check of definitions finds nothing in outputs that are new and distinct. -/
private theorem noteOutputs_of_new {g : Graph} {n : Node} {outputs : List String}
    {produced : List (String × String)} (hnodup : (outputs.filter (· != "")).Nodup)
    (hnew : ∀ value ∈ outputs.filter (· != ""), produced.lookup value = none ∧ value ∉ g.inputs) :
    (outputs.foldl (noteOutput g n) ([], produced)).1 = [] ∧
      ∀ value, produced.lookup value = none → value ∉ outputs.filter (· != "") →
        (outputs.foldl (noteOutput g n) ([], produced)).2.lookup value = none := by
  induction outputs generalizing produced with
  | nil => exact ⟨rfl, fun value hvalue _ => hvalue⟩
  | cons output rest ih =>
      rw [List.foldl_cons]
      by_cases hne : output = ""
      · have hskip : noteOutput g n ([], produced) output = ([], produced) := by
          simp [noteOutput, hne]
        rw [hskip]
        simp only [hne, bne_self_eq_false, Bool.false_eq_true, not_false_eq_true,
          List.filter_cons_of_neg] at hnodup hnew ⊢
        exact ih hnodup hnew
      · have hfilter : (output :: rest).filter (· != "") = output :: rest.filter (· != "") := by
          simp [hne]
        rw [hfilter] at hnodup hnew ⊢
        obtain ⟨hnotin, hnodup⟩ := List.nodup_cons.1 hnodup
        obtain ⟨hnone, hinput⟩ := hnew output List.mem_cons_self
        have hnext : noteOutput g n ([], produced) output =
            ([], (output, n.name) :: produced) := by
          simp [noteOutput, hne, hnone, isInput, hinput]
        have hlookup {value : String} (hvalue : value ≠ output) :
            ((output, n.name) :: produced).lookup value = produced.lookup value := by
          rw [List.lookup_cons, beq_false_of_ne hvalue]
        rw [hnext]
        have hnew' : ∀ value ∈ rest.filter (· != ""),
            ((output, n.name) :: produced).lookup value = none ∧ value ∉ g.inputs := by
          intro value hvalue
          rw [hlookup fun e => hnotin (e ▸ hvalue)]
          exact hnew value (List.mem_cons_of_mem _ hvalue)
        obtain ⟨hfound, hlater⟩ := ih hnodup hnew'
        refine ⟨hfound, fun value hvalue hmem => ?_⟩
        rw [List.mem_cons, not_or] at hmem
        exact hlater value (by rwa [hlookup hmem.1]) hmem.2

/-- The check of definitions finds nothing where names and values are new and distinct. -/
private theorem definitionProblems_of_new {g : Graph} {nodes : List Node} {seen : List String}
    {produced : List (String × String)} (hnames : (nodes.map Node.name).Nodup)
    (hseen : ∀ n ∈ nodes, n.name ∉ seen) (hresults : (nodes.flatMap Node.results).Nodup)
    (hnew : ∀ value ∈ nodes.flatMap Node.results,
      produced.lookup value = none ∧ value ∉ g.inputs) :
    g.definitionProblems seen produced nodes = [] := by
  induction nodes generalizing seen produced with
  | nil => rfl
  | cons n rest ih =>
      have hstep : g.definitionProblems seen produced (n :: rest) =
          (if seen.contains n.name then [Problem.duplicateNodeName n.name] else []) ++
            (n.outputs.foldl (noteOutput g n) ([], produced)).1 ++
            g.definitionProblems (n.name :: seen)
              (n.outputs.foldl (noteOutput g n) ([], produced)).2 rest := rfl
      rw [List.map_cons, List.nodup_cons] at hnames
      rw [List.flatMap_cons] at hresults hnew
      obtain ⟨hnodup, hrest, hdisjoint⟩ := List.nodup_append.1 hresults
      obtain ⟨hfound, hlater⟩ := noteOutputs_of_new (g := g) (n := n) hnodup fun value hvalue =>
        hnew value (List.mem_append_left _ hvalue)
      rw [hstep, hfound, if_neg (by simpa using hseen n List.mem_cons_self)]
      refine ih hnames.2 (fun m hm hmem => ?_) hrest fun value hvalue => ?_
      · rcases List.mem_cons.1 hmem with hname | hmem
        · exact hnames.1 (List.mem_map.2 ⟨m, hm, hname⟩)
        · exact hseen m (List.mem_cons_of_mem _ hm) hmem
      · obtain ⟨hnone, hinput⟩ := hnew value (List.mem_append_right _ hvalue)
        exact ⟨hlater value hnone fun hmem => hdisjoint value hmem value hvalue rfl, hinput⟩

/-! ## Scopes -/

/-- The names that some graph of a list defines. -/
def definedBy (enclosing : List Graph) (value : String) : Prop :=
  ∃ outer ∈ enclosing, outer.defines value = true

theorem definedBy_nil : definedBy [] = fun _ => False := by
  funext value
  simp [definedBy]

/-- What bodies of a graph see is what the graph defines and what is defined around it. -/
theorem definedBy_cons (g : Graph) (enclosing : List Graph) :
    definedBy (g :: enclosing) = g.seenIn (definedBy enclosing) := by
  funext value
  simp [definedBy, seenIn, or_comm]

theorem findSome?_localOrigin? {scopes : List Graph} {value : String} :
    (scopes.findSome? fun scope => scope.localOrigin? value).isSome = true ↔
      definedBy scopes value := by
  rw [List.findSome?_isSome_iff, definedBy]
  refine exists_congr fun scope => and_congr_right fun _ => ?_
  rw [localOrigin?_isSome]

private theorem resolve_isSome {enclosing : List Graph} {g : Graph} {value : String} :
    g.resolve enclosing value ≠ none ↔ g.seenIn (definedBy enclosing) value := by
  rw [← Option.isSome_iff_ne_none, resolve, findSome?_localOrigin?, definedBy_cons]

/-- A graph in which the checks find nothing is scoped. -/
theorem Scoped.of_scopeIssues {enclosing : List Graph} {g : Graph}
    (h : g.scopeIssues enclosing = []) : Scoped (definedBy enclosing) g := by
  unfold scopeIssues at h
  simp only [List.append_eq_nil_iff, List.map_eq_nil_iff] at h
  obtain ⟨⟨⟨⟨hdefinitions, hshadowing⟩, hnodes⟩, houtputs⟩, hcycles⟩ := h
  obtain ⟨hnames, -, hresults, hapart⟩ := definitionProblems_ok hdefinitions
  unfold shadowingProblems at hshadowing
  rw [List.append_eq_nil_iff, List.map_eq_nil_iff, List.filter_eq_nil_iff,
    List.flatMap_eq_nil_iff] at hshadowing
  obtain ⟨hinputs, hshadowed⟩ := hshadowing
  rw [List.flatMap_eq_nil_iff] at hnodes
  unfold outputProblems at houtputs
  rw [List.map_eq_nil_iff, List.filter_eq_nil_iff] at houtputs
  refine ⟨hnames, hresults, fun value hvalue => (hapart value hvalue).2,
    fun value hvalue hseen => hinputs value hvalue (findSome?_localOrigin?.2 hseen), ?_, ?_,
    fun value hvalue => resolve_isSome.1 (by simpa using houtputs value hvalue), ?_⟩
  · intro value hvalue hseen
    obtain ⟨n, hn, hresult⟩ := mem_results.1 hvalue
    obtain ⟨hout, hne⟩ := Node.mem_results.1 hresult
    have hnone := hshadowed n hn
    rw [List.map_eq_nil_iff, List.filter_eq_nil_iff] at hnone
    refine hnone value hout ?_
    simp only [findSome?_localOrigin?.2 hseen, Bool.and_true]
    simpa using hne
  · intro n hn value hvalue hne
    have hnone := hnodes n hn
    simp only [nodeProblems, List.append_eq_nil_iff, List.map_eq_nil_iff] at hnone
    have := List.filter_eq_nil_iff.1 hnone.1.1.1 value hvalue
    exact resolve_isSome.1 (by simpa [hne] using this)
  · rw [topologicalOrder_eq] at hcycles ⊢
    split
    · exact ⟨_, rfl⟩
    · rename_i hlength
      simp [hlength] at hcycles

/-- What is wrong with a node by the rules of its operator. -/
def operatorProblems (enclosing : List Graph) (g : Graph) (n : Node) : List Problem :=
  (if n.op = "Transpose" then g.transposeProblems enclosing n else []) ++
    (if n.op = "Loop" then loopProblems n else []) ++
    (if n.op = "If" then branchProblems n else [])

/-- Where the checks find nothing, every node keeps the rules of its operator. -/
theorem operatorProblems_of_scopeIssues {enclosing : List Graph} {g : Graph}
    (h : g.scopeIssues enclosing = []) {n : Node} (hn : n ∈ g.nodes) :
    g.operatorProblems enclosing n = [] := by
  unfold scopeIssues at h
  simp only [List.append_eq_nil_iff, List.map_eq_nil_iff, List.flatMap_eq_nil_iff] at h
  have hnode := h.1.1.2 n hn
  unfold nodeProblems at hnode
  unfold operatorProblems
  simp only [List.append_eq_nil_iff] at hnode ⊢
  exact ⟨⟨hnode.1.1.2, hnode.1.2⟩, hnode.2⟩

/-- In a scoped graph the checks find nothing but what the rules of operators forbid. -/
theorem Scoped.mem_scopeIssues {enclosing : List Graph} {g : Graph}
    (h : Scoped (definedBy enclosing) g) {issue : Issue} (hissue : issue ∈ g.scopeIssues enclosing) :
    ∃ n ∈ g.nodes, issue.problem ∈ g.operatorProblems enclosing n := by
  have hdefinitions : g.definitionProblems [] [] g.nodes = [] :=
    definitionProblems_of_new h.names (by simp) h.results fun value hvalue =>
      ⟨rfl, h.apart value hvalue⟩
  have hshadowing : g.shadowingProblems enclosing = [] := by
    unfold shadowingProblems
    simp only [List.append_eq_nil_iff, List.map_eq_nil_iff, List.filter_eq_nil_iff,
      List.flatMap_eq_nil_iff, findSome?_localOrigin?, Bool.and_eq_true, bne_iff_ne]
    exact ⟨h.newInputs, fun n hn value hvalue ⟨hne, hseen⟩ =>
      h.newResults value (mem_results.2 ⟨n, hn, Node.mem_results.2 ⟨hvalue, hne⟩⟩) hseen⟩
  have houtputs : g.outputProblems enclosing = [] := by
    unfold outputProblems
    simp only [List.map_eq_nil_iff, List.filter_eq_nil_iff, Option.isNone_iff_eq_none]
    exact fun value hvalue => resolve_isSome.2 (h.yielded value hvalue)
  obtain ⟨order, horder⟩ := h.ordered
  unfold scopeIssues at hissue
  simp only [hdefinitions, hshadowing, houtputs, horder, List.nil_append, List.append_nil,
    List.mem_map, List.mem_flatMap] at hissue
  obtain ⟨problem, ⟨n, hn, hproblem⟩, rfl⟩ := hissue
  refine ⟨n, hn, ?_⟩
  have hdangling : (n.inputs.filter fun input =>
      input != "" && (g.resolve enclosing input).isNone) = [] := by
    simp only [List.filter_eq_nil_iff, Bool.and_eq_true, bne_iff_ne, Option.isNone_iff_eq_none]
    exact fun value hvalue ⟨hne, hnone⟩ =>
      resolve_isSome.2 (h.taken n hn value hvalue hne) hnone
  unfold nodeProblems at hproblem
  unfold operatorProblems
  simpa only [hdangling, List.map_nil, List.nil_append] using hproblem

theorem scopeIssues_eq_nil_iff {enclosing : List Graph} {g : Graph} : g.scopeIssues enclosing = [] ↔
    Scoped (definedBy enclosing) g ∧ ∀ n ∈ g.nodes, g.operatorProblems enclosing n = [] := by
  refine ⟨fun h => ⟨.of_scopeIssues h, fun n => operatorProblems_of_scopeIssues h⟩, ?_⟩
  rintro ⟨hscoped, hrules⟩
  refine List.eq_nil_iff_forall_not_mem.2 fun issue hissue => ?_
  obtain ⟨n, hn, hproblem⟩ := hscoped.mem_scopeIssues hissue
  rw [hrules n hn] at hproblem
  cases hproblem

/-- What holds of the names that are seen from a graph is all that counts. -/
theorem ScopedTree.congr {visible visible' : String → Prop} {g : Graph}
    (h : ScopedTree visible g) (hsame : ∀ value, visible value ↔ visible' value) :
    ScopedTree visible' g := by
  obtain rfl : visible = visible' := funext fun value => propext (hsame value)
  exact h

private theorem scopedTree_of_issuesIn {enclosing : List Graph} {g : Graph}
    (h : g.issuesIn enclosing = []) : ScopedTree (definedBy enclosing) g := by
  induction g using bodyInduction generalizing enclosing with
  | step g ih =>
      rw [issuesIn_eq, List.append_eq_nil_iff, List.flatMap_eq_nil_iff] at h
      refine .intro (.of_scopeIssues h.1) fun n hn body hbody => ?_
      rw [← definedBy_cons]
      exact ih n hn body hbody (List.flatMap_eq_nil_iff.1 (h.2 n hn) body hbody)

/-- Every graph of a valid tree is scoped. -/
theorem IsValid.scopedTree {g : Graph} (h : g.IsValid) : ScopedTree (fun _ => False) g :=
  definedBy_nil ▸ scopedTree_of_issuesIn h

/-! ## Tidy trees -/

/-- What a scoped graph mentions is defined in it or around it. -/
theorem Scoped.seenIn_of_mentions {visible : String → Prop} {g : Graph} (h : Scoped visible g)
    {value : String} (hvalue : g.Mentions value) : g.seenIn visible value := by
  rcases hvalue with hdef | ⟨hne, n, hn, hin⟩
  · exact .inr hdef
  · exact h.taken n hn value hin hne

/-- What a scoped graph uses is defined in it or around it. -/
theorem Scoped.seenIn_of_uses {visible : String → Prop} {g : Graph} (h : Scoped visible g)
    (hbodies : ∀ n ∈ g.nodes, ∀ body ∈ n.bodies,
      ∀ value ∈ body.2.outerReferences, g.seenIn visible value) {value : String}
    (hused : g.Uses value) : g.seenIn visible value := by
  rcases hused with ⟨hout, -⟩ | ⟨n, hn, hread⟩
  · exact h.yielded value hout
  · rcases Node.mem_reads.1 hread with ⟨hin, hne⟩ | ⟨body, hbody, hmem⟩
    · exact h.taken n hn value hin hne
    · exact hbodies n hn body hbody value hmem

/-- What a tree of scoped graphs takes from outside is defined there. -/
theorem ScopedTree.visible_of_mem_outerReferences {visible : String → Prop} {g : Graph}
    (h : ScopedTree visible g) {value : String} (hvalue : value ∈ g.outerReferences) :
    visible value := by
  induction h generalizing value with
  | @intro visible g here _ ih =>
      obtain ⟨hdef, hused⟩ := mem_outerReferences_iff.1 hvalue
      refine (here.seenIn_of_uses (fun n hn body hbody value hmem => ih n hn body hbody hmem)
        hused).resolve_right ?_
      simp [hdef]

/-- A value that a graph of a scoped tree uses is defined in it or around it. -/
theorem ScopedTree.seenIn_of_uses {visible : String → Prop} {g : Graph}
    (h : ScopedTree visible g) {value : String} (hused : g.Uses value) : g.seenIn visible value :=
  h.here.seenIn_of_uses
    (fun _ hn _ hbody _ hmem => visible_of_mem_outerReferences (h.body hn hbody) hmem) hused

/-- No value is yielded by two nodes of a scoped graph. -/
theorem Scoped.once {visible : String → Prop} {g : Graph} (h : Scoped visible g) (value : String) :
    g.Once value := by
  intro n hn m hm hvn hvm
  by_contra hne
  have : Std.Symm (Function.onFun List.Disjoint Node.results) :=
    ⟨fun _ _ hdis _ hb ha => hdis ha hb⟩
  have hdisjoint := (List.nodup_flatMap.1 h.results).2.forall hn hm
    fun e => hne (congrArg Node.name e)
  exact hdisjoint hvn hvm

/-- A scoped graph whose attributes are records is tidy. -/
theorem Scoped.tidy {visible : String → Prop} {g : Graph} (h : Scoped visible g)
    (hkeyed : ∀ n ∈ g.nodes, n.Keyed) : Tidy visible g where
  names := h.names
  distinct := (List.nodup_flatMap.1 h.results).1
  single value := .inl (h.once value)
  apart := h.apart
  newInputs := h.newInputs
  newResults := h.newResults
  keyed := hkeyed

/-- A tree of scoped graphs is tidy. -/
theorem ScopedTree.tidyTree {visible : String → Prop} {g : Graph} (h : ScopedTree visible g)
    {anywhere : String → Prop}
    (hkeyed : Everywhere (fun _ taken => taken) (fun _ g => ∀ n ∈ g.nodes, n.Keyed) anywhere g) :
    TidyTree visible g := by
  induction h with
  | @intro visible g here _ ih =>
      refine .intro (here.tidy hkeyed.here) fun n hn body hbody => ?_
      exact (ih n hn body hbody (hkeyed.body hn hbody)).of_scope fun name _ htaken =>
        htaken.elim .inl here.seenIn_of_mentions

/-- A valid graph is tidy in the surroundings of a root. -/
theorem IsValid.tidyIn {g : Graph} (h : g.IsValid) (hkeyed : KeyedTree g) : TidyIn .root g where
  covers := by
    rintro value ⟨outer, houter, -⟩
    cases houter
  tree := by
    refine TidyTree.of_scope (h.scopedTree.tidyTree hkeyed) fun name _ htaken => ?_
    obtain ⟨outer, houter, -⟩ := htaken
    cases houter

end Graph

end TensorGraph
