import TensorGraph.Proofs.Avoiding
import TensorGraph.Proofs.Running

/-!
# Bodies that are entered

While a graph is run, bodies are entered: that of a loop in each of its rounds, and the branch of a
conditional that its operand chooses. A frame is a graph that is run, with what is bound around it and
what its inputs are fed. It is active if the run comes to it, through any number of bodies.

A failure that says that a value was not supplied comes from an active frame: either an input of it is
fed nothing, or one of its nodes yields nothing for an output. Which frames are active does not depend
on how many rounds a loop may take.

## Main results

* `Evaluation.Enters.mem_bodiesOf` -- a node enters bodies of its own only.
* `Evaluation.Active.trans` -- what is active in an active frame is active.
* `Evaluation.exists_unsupplied` -- where a value that is missing was not supplied.
-/

namespace TensorGraph

/-! ## Values that are lacked -/

/-- Whether a failure says that an input was fed nothing, or that nothing was yielded for an
output. -/
def Failure.isSupply : Failure → Bool
  | .missingFeed .. | .nothingProduced .. => true
  | _ => false

/-- Whether a failure says that a name is not bound, or that a value was not supplied. -/
def Failure.isLack : Failure → Bool
  | .unbound _ => true
  | e => e.isSupply

/-- Whether a computation lacks no value when it fails. -/
abbrev Provided {α : Type} (x : Except Failure α) : Prop := Avoids Failure.isLack x

theorem Provided.avoids_supply {α : Type} {x : Except Failure α} (h : Provided x) :
    Avoids Failure.isSupply x := h.of_imp fun e he => by
  cases e with
  | unbound value => cases he
  | _ => exact he

theorem bind_eq_error {ε α β : Type} {x : Except ε α} {f : α → Except ε β} {e : ε}
    (h : (x >>= f) = .error e) : x = .error e ∨ ∃ a, x = .ok a ∧ f a = .error e := by
  cases x with
  | error e' => exact .inl (congrArg Except.error (Except.error.inj h))
  | ok a => exact .inr ⟨a, rfl, h⟩

namespace Evaluation

open Operand

variable {V : Type} [Operand V]

/-- Whether kernels, and conditions and trip counts, lack no value. -/
structure Machine.Supplies (m : Machine V) : Prop where
  compute : ∀ n values, Provided (m.compute n values)
  single : ∀ (value : V) what, Provided (single value what)

/-! ## Entering a body -/

/-- What a loop is given in the slots of its inputs. -/
def slots (n : Node) (env : Environment V) : Except Failure (List V) :=
  n.inputs.mapM fun name => if name = "" then pure (truth true) else lookup env name

/-- What another node is given: the values of the inputs that are there. -/
def operands (n : Node) (env : Environment V) : Except Failure (List V) :=
  (n.inputs.filter (· != "")).mapM (lookup env)

/-- Whether a loop goes on to a round. -/
def goesOn (limit : Option Number) (iteration : Nat) (condition : Bool) : Bool :=
  condition && limit.all fun count => (Number.ofNat iteration).below count

/-- The state that a loop is in before a round, from the condition and the values that it starts
with. -/
inductive Round (n : Node) (body : Body V) (env : Environment V) (limit : Option Number)
    (start : Bool) (carried : List V) : Nat → Bool → List V → Prop
  | first : Round n body env limit start carried 0 start carried
  | next {iteration : Nat} {condition : Bool} {state state' : List V} {value : V} {x : Number} :
      Round n body env limit start carried iteration condition state →
      goesOn limit iteration condition = true →
      body.meaning env (loopFeeds body.graph.inputs iteration condition state) = .ok (value :: state') →
      single value (n.name ++ " condition") = .ok x →
      Round n body env limit start carried (iteration + 1) (holds x) state'

/-- Whether a node that is run in some environment enters one of its bodies with some feeds. -/
inductive Enters (m : Machine V) (n : Node) (env : Environment V) :
    Body V → (String → Option V) → Prop
  | round {values state : List V} {body : Body V} {limit : Option Number} {start condition : Bool}
      {iteration : Nat} : n.op = "Loop" → slots n env = .ok values →
      ((bodiesOf m n).find? fun body => body.key == "body") = some body →
      tripLimit n values = .ok limit → firstCondition n values = .ok start →
      body.graph.outputs.length = (values.drop 2).length + 1 →
      Round n body env limit start (values.drop 2) iteration condition state →
      goesOn limit iteration condition = true →
      Enters m n env body (loopFeeds body.graph.inputs iteration condition state)
  | branch {values : List V} {value : V} {x : Number} {body : Body V} : n.op = "If" →
      operands n env = .ok values → operand n values 0 = .ok value →
      single value (n.name ++ " condition") = .ok x →
      ((bodiesOf m n).find? fun body =>
        body.key == if holds x then "then_branch" else "else_branch") = some body →
      Enters m n env body unfed

theorem Enters.mem_bodiesOf {m : Machine V} {n : Node} {env : Environment V} {body : Body V}
    {feeds : String → Option V} (h : Enters m n env body feeds) : body ∈ bodiesOf m n := by
  cases h with
  | round _ _ hbody => exact List.mem_of_find?_eq_some hbody
  | branch _ _ _ _ hbody => exact List.mem_of_find?_eq_some hbody

/-! ## Active frames -/

/-- A graph that is run, with what is bound around it and what its inputs are fed. -/
structure Frame (V : Type) where
  graph : Graph
  outer : Environment V
  feeds : String → Option V

/-- Whether a run of a frame comes to a node, with something bound by then. -/
def Frame.ComesTo (m : Machine V) (f : Frame V) (n : Node) (b : Bindings V) : Prop :=
  ∃ inputs order before after, bindInputs f.graph f.feeds f.graph.inputs [] = .ok inputs ∧
    f.graph.topologicalOrder = .ok order ∧ f.graph.nodesAt order = before ++ n :: after ∧
    runNodes m f.outer before inputs = .ok b

theorem Frame.ComesTo.mem_nodes {m : Machine V} {f : Frame V} {n : Node} {b : Bindings V}
    (h : f.ComesTo m n b) : n ∈ f.graph.nodes := by
  obtain ⟨_, order, before, after, -, -, hnodes, -⟩ := h
  have hmem : n ∈ f.graph.nodesAt order := by simp [hnodes]
  obtain ⟨place, -, hplace⟩ := List.mem_filterMap.1 hmem
  exact List.mem_of_getElem? hplace

/-- The frames that a run comes to, from the one that it starts with. -/
inductive Active (m : Machine V) (root : Frame V) : Frame V → Prop
  | root : Active m root root
  | enter {f : Frame V} {n : Node} {b : Bindings V} {body : Body V} {feeds : String → Option V} :
      Active m root f → f.ComesTo m n b → Enters m n (b :: f.outer) body feeds →
      Active m root ⟨body.graph, b :: f.outer, feeds⟩

theorem Active.trans {m : Machine V} {root f h : Frame V} (hf : Active m root f)
    (hh : Active m f h) : Active m root h := by
  induction hh with
  | root => exact hf
  | enter _ hcomes henters ih => exact ih.enter hcomes henters

/-! ## Where a value was not supplied -/

/-- Whether an input of a frame is fed nothing, or a node that it comes to yields nothing for an
output, and a failure says so. -/
def Frame.Unsupplied (m : Machine V) (f : Frame V) (e : Failure) : Prop :=
  bindInputs f.graph f.feeds f.graph.inputs [] = .error e ∨
    ∃ n b values, f.ComesTo m n b ∧ runNode m n (bodiesOf m n) (b :: f.outer) = .ok values ∧
      bindOutputs n n.outputs values b = .error e

section Unsupplied

variable {m : Machine V} {n : Node} {env : Environment V} {e : Failure}

/-! What a name is bound to is not supplied, but looked up. -/

omit [Operand V] in
theorem avoids_supply_lookup (name : String) : Avoids Failure.isSupply (lookup env name) := by
  unfold lookup
  split
  · exact .ok _
  · exact .error rfl

theorem avoids_supply_slots : Avoids Failure.isSupply (slots n env) := .mapM fun name _ => by
  split
  · exact .ok _
  · exact avoids_supply_lookup name

omit [Operand V] in
theorem avoids_supply_operands : Avoids Failure.isSupply (operands n env) :=
  .mapM fun name _ => avoids_supply_lookup name

omit [Operand V] in
theorem provided_operand (values : List V) (i : Nat) : Provided (operand n values i) := by
  unfold operand
  split
  · exact .ok _
  · exact .error rfl

variable (hm : m.Supplies)
include hm

theorem provided_tripLimit (values : List V) : Provided (tripLimit n values) := by
  unfold tripLimit
  split
  · exact .ok _
  · exact (provided_operand _ _).bind fun _ => (hm.single _ _).bind fun _ => .ok _

theorem provided_firstCondition (values : List V) : Provided (firstCondition n values) := by
  unfold firstCondition
  split
  · exact .ok _
  · exact (provided_operand _ _).bind fun _ => (hm.single _ _).bind fun _ => .ok _

/-- If a loop lacks a value in some round, the body lacks it. -/
theorem exists_round_of_error {body : Body V} {limit : Option Number} {start condition : Bool}
    {carried state : List V} {budget iteration : Nat}
    (hround : Round n body env limit start carried iteration condition state)
    (h : rounds n body env limit budget iteration condition state = .error e)
    (he : e.isSupply = true) :
    ∃ iteration condition state, Round n body env limit start carried iteration condition state ∧
      goesOn limit iteration condition = true ∧
      body.meaning env (loopFeeds body.graph.inputs iteration condition state) = .error e := by
  induction budget generalizing iteration condition state with
  | zero =>
      unfold rounds at h
      split at h
      · cases h
        cases he
      · cases h
  | succ budget ih =>
      unfold rounds at h
      split at h
      · rename_i hgoes
        rcases bind_eq_error h with hbody | ⟨values, hvalues, h⟩
        · exact ⟨iteration, condition, state, hround, hgoes, hbody⟩
        · cases values with
          | nil =>
              cases h
              cases he
          | cons value state' =>
              rcases bind_eq_error h with hsingle | ⟨x, hx, h⟩
              · exact absurd hsingle ((hm.single _ _).avoids_supply.ne he)
              · exact ih (hround.next hgoes hvalues hx) h
      · cases h

/-- If a node lacks a value, it is a body that lacks it. -/
theorem exists_enters_of_error (h : runNode m n (bodiesOf m n) env = .error e)
    (he : e.isSupply = true) :
    ∃ body feeds, Enters m n env body feeds ∧ body.meaning env feeds = .error e := by
  have hlacks : ∀ {α : Type} {x : Except Failure α}, Provided x → x ≠ .error e :=
    fun hx => hx.avoids_supply.ne he
  unfold runNode at h
  obtain ⟨values, hvalues, h⟩ := (bind_eq_error h).resolve_left
    (avoids_supply_operands.ne he)
  split at h
  · rename_i hloop
    obtain ⟨values, hvalues, h⟩ := (bind_eq_error h).resolve_left
      (avoids_supply_slots.ne he)
    rw [runLoop_eq] at h
    split at h
    · cases h
      cases he
    · rename_i body hbody
      obtain ⟨limit, hlimit, h⟩ := (bind_eq_error h).resolve_left (hlacks (provided_tripLimit hm _))
      obtain ⟨start, hstart, h⟩ := (bind_eq_error h).resolve_left
        (hlacks (provided_firstCondition hm _))
      split at h
      · rename_i hlength
        obtain ⟨iteration, condition, state, hround, hgoes, hmeaning⟩ :=
          exists_round_of_error hm .first h he
        exact ⟨body, _, .round hloop hvalues hbody hlimit hstart hlength hround hgoes, hmeaning⟩
      · cases h
        cases he
  · split at h
    · rename_i hif
      unfold runBranch at h
      dsimp only at h
      obtain ⟨value, hvalue, h⟩ := (bind_eq_error h).resolve_left (hlacks (provided_operand _ _))
      obtain ⟨x, hx, h⟩ := (bind_eq_error h).resolve_left (hlacks (hm.single _ _))
      generalize hbody : (bodiesOf m n).find? _ = found at h
      cases found with
      | none =>
          cases h
          cases he
      | some body => exact ⟨body, unfed, .branch hif hvalues hvalue hx hbody, h⟩
    · exact absurd h (hlacks (hm.compute _ _))

omit hm in
/-- If nodes that are run one after the other fail, there is a first one that fails. -/
theorem exists_of_runNodes_error {outer : Environment V} {nodes : List Node} {b : Bindings V}
    (h : runNodes m outer nodes b = .error e) :
    ∃ before n after c, nodes = before ++ n :: after ∧ runNodes m outer before b = .ok c ∧
      (runNode m n (bodiesOf m n) (c :: outer) = .error e ∨
        ∃ values, runNode m n (bodiesOf m n) (c :: outer) = .ok values ∧
          bindOutputs n n.outputs values c = .error e) := by
  induction nodes generalizing b with
  | nil => cases h
  | cons n rest ih =>
      unfold runNodes at h
      rw [List.foldlM_cons] at h
      rcases bind_eq_error h with hnode | ⟨c, hc, h⟩
      · exact ⟨[], n, rest, b, rfl, rfl, bind_eq_error hnode⟩
      · obtain ⟨before, k, after, c', rfl, hbefore, hfails⟩ := ih h
        refine ⟨n :: before, k, after, c', rfl, ?_, hfails⟩
        unfold runNodes
        rw [List.foldlM_cons, hc]
        exact hbefore

/-- A run that lacks a value comes to a frame that was not supplied with it. -/
theorem exists_unsupplied {g : Graph} {outer : Environment V} {feeds : String → Option V}
    (h : run m g outer feeds = .error e) (he : e.isSupply = true) :
    ∃ f, Active m ⟨g, outer, feeds⟩ f ∧ f.Unsupplied m e := by
  induction g using Graph.bodyInduction generalizing outer feeds with
  | step g ih =>
      rw [run_eq_runNodes] at h
      rcases bind_eq_error h with hinputs | ⟨inputs, hinputs, h⟩
      · exact ⟨_, .root, .inl hinputs⟩
      rcases bind_eq_error h with horder | ⟨order, horder, h⟩
      · exact absurd horder ((g.avoids_topologicalOrder fun _ => rfl).ne he)
      rcases bind_eq_error h with hnodes | ⟨b, -, h⟩
      · obtain ⟨before, n, after, b, hsplit, hbefore, hfails⟩ := exists_of_runNodes_error hnodes
        have hcomes : Frame.ComesTo m ⟨g, outer, feeds⟩ n b :=
          ⟨inputs, order, before, after, hinputs, horder, hsplit, hbefore⟩
        rcases hfails with hnode | ⟨values, hvalues, houtputs⟩
        · obtain ⟨body, fed, henters, hbody⟩ := exists_enters_of_error hm hnode he
          obtain ⟨entry, hentry, rfl⟩ := List.mem_map.1 henters.mem_bodiesOf
          obtain ⟨f, hactive, hunsupplied⟩ := ih n hcomes.mem_nodes entry hentry hbody
          exact ⟨f, (Active.root.enter hcomes henters).trans hactive, hunsupplied⟩
        · exact ⟨_, .root, .inr ⟨n, b, values, hcomes, hvalues, houtputs⟩⟩
      · have houtputs : Avoids Failure.isSupply (g.outputs.mapM (lookup (b :: outer))) :=
          .mapM fun name _ => avoids_supply_lookup name
        exact absurd h (houtputs.ne he)

end Unsupplied

end Evaluation

end TensorGraph
