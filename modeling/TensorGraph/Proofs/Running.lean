import Mathlib.Data.List.Forall2
import TensorGraph.Execution.Evaluate
import TensorGraph.Proofs.Wellformed

/-!
# Runs

What a node yields is a matter of the values that it reads, and a run over nodes in dependency
order binds each value once.

Only results are compared here. Why a run fails may change with the names in a graph.

## Main results

* `Evaluation.runNode_answers` -- a node asks its bodies for a few things only.
* `Evaluation.runNode_refines` -- a node has every result that it had, if its bodies have.
* `Evaluation.runNode_congr` -- nodes that read the same values yield the same values.
* `Evaluation.exists_sorted` -- in dependency order no node reads what a later one yields.
* `Evaluation.run_eq_runNodes` -- a graph is run by running its nodes in dependency order.
-/

namespace TensorGraph.Evaluation

open Operand

/-! ## Results -/

section Results

variable {ε α β : Type}

@[simp] theorem toOption_ok (a : α) : (Except.ok a : Except ε α).toOption = some a := rfl

@[simp] theorem toOption_error (e : ε) : (Except.error e : Except ε α).toOption = none := rfl

@[simp] theorem toOption_pure (a : α) : (pure a : Except ε α).toOption = some a := rfl

theorem toOption_eq_some {x : Except ε α} {a : α} : x.toOption = some a ↔ x = .ok a := by
  cases x <;> simp

/-- A computation fails exactly if it has no result. -/
theorem exists_error_iff {x : Except ε α} : (∃ e, x = .error e) ↔ ¬ ∃ a, x = .ok a := by
  cases x <;> simp

/-- What is done to the result does not change why a computation fails. -/
theorem eq_error_of_map {x : Except ε α} {f : α → β} {e : ε} (h : x.map f = .error e) :
    x = .error e := by
  cases x with
  | ok a => cases h
  | error e' => exact congrArg Except.error (Except.error.inj h)

@[simp] theorem ok_bind (a : α) (f : α → Except ε β) : (Except.ok a >>= f) = f a := rfl

theorem toOption_bind (x : Except ε α) (f : α → Except ε β) :
    (x >>= f).toOption = x.toOption.bind fun a => (f a).toOption := by
  cases x <;> rfl

theorem toOption_mapM (f : α → Except ε β) (l : List α) :
    (l.mapM f).toOption = l.mapM fun a => (f a).toOption := by
  induction l with
  | nil => rfl
  | cons a l ih =>
      rw [List.mapM_cons, List.mapM_cons, toOption_bind]
      refine Option.bind_congr fun b _ => ?_
      rw [toOption_bind, ih]
      rfl

theorem mapM_congr {f g : α → Option β} {l : List α} (h : ∀ a ∈ l, f a = g a) :
    l.mapM f = l.mapM g := by
  induction l with
  | nil => rfl
  | cons a l ih =>
      obtain ⟨ha, hl⟩ := List.forall_mem_cons.1 h
      rw [List.mapM_cons, List.mapM_cons, ha, ih hl]

/-- Whether one computation has the result of another one, if that has any. -/
def Refines (x y : Except ε α) : Prop := ∀ a, x = .ok a → y = .ok a

namespace Refines

theorem refl (x : Except ε α) : Refines x x := fun _ => id

theorem trans {x y z : Except ε α} (h : Refines x y) (h' : Refines y z) : Refines x z :=
  fun a ha => h' a (h a ha)

theorem of_toOption {x y : Except ε α} (h : y.toOption = x.toOption) : Refines x y := fun a ha => by
  rw [← toOption_eq_some, h, ha, toOption_ok]

theorem toOption_eq {x y : Except ε α} (h : Refines x y) (h' : Refines y x) :
    y.toOption = x.toOption := by
  refine Option.ext fun a => ?_
  rw [toOption_eq_some, toOption_eq_some]
  exact ⟨h' a, h a⟩

theorem error (e : ε) (y : Except ε α) : Refines (.error e) y := fun _ ha => by cases ha

theorem bind {x y : Except ε α} {f k : α → Except ε β} (h : Refines x y)
    (hf : ∀ a, Refines (f a) (k a)) : Refines (x >>= f) (y >>= k) := by
  intro b hb
  obtain ⟨a, ha, hb⟩ := bind_eq_ok hb
  rw [h a ha]
  exact hf a b hb

end Refines

end Results

variable {V : Type}

@[simp] theorem toOption_lookup (env : Environment V) (name : String) :
    (lookup env name).toOption = lookup? env name := by
  unfold lookup
  cases lookup? env name <;> rfl

/-- The value of a name in some bindings before those around them. -/
theorem lookup?_cons (b : Bindings V) (env : Environment V) (name : String) :
    lookup? (b :: env) name = (b.lookup name).or (lookup? env name) := by
  unfold lookup?
  rw [List.findSome?_cons]
  cases b.lookup name <;> rfl

/-! ## Nodes that read the same values -/

/-- Two names that are both absent, or have the same value in two environments. -/
def SameValue (env env' : Environment V) (name name' : String) : Prop :=
  (name' = "" ↔ name = "") ∧ (name ≠ "" → lookup? env' name' = lookup? env name)

/-- Two bodies of one interface, of which the second has in another environment every result that
the first one has. -/
structure RefinedBody (env env' : Environment V) (body body' : Body V) : Prop where
  key : body'.key = body.key
  inputs : body'.graph.inputs = body.graph.inputs
  outputs : body'.graph.outputs.length = body.graph.outputs.length
  meaning : ∀ feeds, Refines (body.meaning env feeds) (body'.meaning env' feeds)

/-- Two bodies of which the second has in another environment every result that a node of an operator
asks the first one for: a loop for what its body is fed in some round, a conditional for what its
branch yields when it is fed nothing. The bodies may have inputs of different names. -/
structure AnsweringBody [Operand V] (op : String) (env env' : Environment V) (body body' : Body V) :
    Prop where
  key : body'.key = body.key
  outputs : body'.graph.outputs.length = body.graph.outputs.length
  round : op = "Loop" → body.key = "body" → ∀ iteration condition carried,
    Refines (body.meaning env (loopFeeds body.graph.inputs iteration condition carried))
      (body'.meaning env' (loopFeeds body'.graph.inputs iteration condition carried))
  branch : op = "If" → Refines (body.meaning env unfed) (body'.meaning env' unfed)

theorem RefinedBody.answering [Operand V] {env env' : Environment V} {body body' : Body V}
    (h : RefinedBody env env' body body') (op : String) : AnsweringBody op env env' body body' where
  key := h.key
  outputs := h.outputs
  round _ _ _ _ _ := by
    rw [h.inputs]
    exact h.meaning _
  branch _ := h.meaning _

/-- Two nodes of one kind that read the same values in two environments, of which the second has
every result that the first one has, as far as that is not up to its bodies. -/
structure RefinedNode (m : Machine V) (env env' : Environment V) (bodies bodies' : List (Body V))
    (n n' : Node) : Prop where
  name : n'.name = n.name
  op : n'.op = n.op
  compute : ∀ operands, Refines (m.compute n operands) (m.compute n' operands)
  inputs : List.Forall₂ (SameValue env env') n.inputs n'.inputs
  bodies : List.Forall₂ (RefinedBody env env') bodies bodies'

/-- Two bodies that do the same in two environments. -/
structure SameBody (env env' : Environment V) (body body' : Body V) : Prop where
  key : body'.key = body.key
  inputs : body'.graph.inputs = body.graph.inputs
  outputs : body'.graph.outputs.length = body.graph.outputs.length
  meaning : ∀ feeds, (body'.meaning env' feeds).toOption = (body.meaning env feeds).toOption

/-- Two nodes of one kind that read the same values in two environments. -/
structure SameNode (m : Machine V) (env env' : Environment V) (bodies bodies' : List (Body V))
    (n n' : Node) : Prop where
  name : n'.name = n.name
  op : n'.op = n.op
  compute : ∀ operands, (m.compute n' operands).toOption = (m.compute n operands).toOption
  inputs : List.Forall₂ (SameValue env env') n.inputs n'.inputs
  bodies : List.Forall₂ (SameBody env env') bodies bodies'

theorem SameValue.symm {env env' : Environment V} {name name' : String}
    (h : SameValue env env' name name') : SameValue env' env name' name :=
  ⟨h.1.symm, fun hne => (h.2 fun e => hne (h.1.2 e)).symm⟩

theorem SameNode.symm {m : Machine V} {env env' : Environment V} {bodies bodies' : List (Body V)}
    {n n' : Node} (h : SameNode m env env' bodies bodies' n n') :
    SameNode m env' env bodies' bodies n' n where
  name := h.name.symm
  op := h.op.symm
  compute operands := (h.compute operands).symm
  inputs := (h.inputs.imp fun _ _ => SameValue.symm).flip
  bodies := (h.bodies.imp fun _ _ hbody => ⟨hbody.key.symm, hbody.inputs.symm, hbody.outputs.symm,
    fun feeds => (hbody.meaning feeds).symm⟩ : List.Forall₂ (fun body body' =>
      SameBody env' env body' body) bodies bodies').flip

theorem SameNode.refined {m : Machine V} {env env' : Environment V} {bodies bodies' : List (Body V)}
    {n n' : Node} (h : SameNode m env env' bodies bodies' n n') :
    RefinedNode m env env' bodies bodies' n n' where
  name := h.name
  op := h.op
  compute operands := .of_toOption (h.compute operands)
  inputs := h.inputs
  bodies := h.bodies.imp fun _ _ hbody => ⟨hbody.key, hbody.inputs, hbody.outputs,
    fun feeds => .of_toOption (hbody.meaning feeds)⟩

section Loops

variable [Operand V]

/-- The number of rounds to which the operands of a loop limit it. -/
def tripLimit (n : Node) (operands : List V) : Except Failure (Option Number) :=
  if n.inputs[0]? = some "" then .ok none
  else do
    let value ← single (← operand n operands 0) (n.name ++ " trip count")
    return some value

/-- The condition that a loop starts with. -/
def firstCondition (n : Node) (operands : List V) : Except Failure Bool :=
  if n.inputs[1]? = some "" then .ok true
  else do
    let value ← single (← operand n operands 1) (n.name ++ " condition")
    return holds value

theorem runLoop_eq (m : Machine V) (n : Node) (bodies : List (Body V)) (env : Environment V)
    (operands : List V) : runLoop m n bodies env operands =
      match bodies.find? fun body => body.key == "body" with
      | none => .error (.loopWithoutBody n.name)
      | some body => (do
          let limit ← tripLimit n operands
          let condition ← firstCondition n operands
          if body.graph.outputs.length = (operands.drop 2).length + 1 then
            rounds n body env limit m.budget 0 condition (operands.drop 2)
          else .error (.loopScanOutputs n.name)) := by
  unfold runLoop tripLimit firstCondition
  cases bodies.find? fun body => body.key == "body" with
  | none => rfl
  | some body =>
      dsimp only
      split <;> split <;> simp only [bind_assoc, ok_bind, pure_bind]

end Loops

section Same

variable {m : Machine V} {env env' : Environment V} {bodies bodies' : List (Body V)} {n n' : Node}
  {names names' : List String}

private theorem find?_answering [Operand V] {op : String}
    (h : List.Forall₂ (AnsweringBody op env env') bodies bodies') (key : String) :
    Option.Rel (AnsweringBody op env env') (bodies.find? fun body => body.key == key)
      (bodies'.find? fun body => body.key == key) := by
  induction h with
  | nil => exact .none
  | @cons body body' _ _ hbody _ ih =>
      rw [List.find?_cons, List.find?_cons, hbody.key]
      cases body.key == key
      · exact ih
      · exact .some hbody

private theorem mapM_present (h : List.Forall₂ (SameValue env env') names names') :
    (names'.filter (· != "")).mapM (lookup? env') = (names.filter (· != "")).mapM (lookup? env) := by
  induction h with
  | nil => rfl
  | @cons name name' _ _ hname _ ih =>
      by_cases habsent : name = ""
      · simpa [habsent, hname.1.2 habsent] using ih
      · have hpresent : name' ≠ "" := fun e => habsent (hname.1.1 e)
        simp only [List.filter_cons, bne_iff_ne, ne_eq, habsent, hpresent, not_false_eq_true,
          if_true, List.mapM_cons, hname.2 habsent, ih]

private theorem mapM_slots (value : V) (h : List.Forall₂ (SameValue env env') names names') :
    (names'.mapM fun name => if name = "" then some value else lookup? env' name) =
      names.mapM fun name => if name = "" then some value else lookup? env name := by
  induction h with
  | nil => rfl
  | @cons name name' _ _ hname _ ih =>
      simp only [List.mapM_cons, ih]
      by_cases habsent : name = ""
      · simp [habsent, hname.1.2 habsent]
      · have hpresent : name' ≠ "" := fun e => habsent (hname.1.1 e)
        simp only [if_neg habsent, if_neg hpresent, hname.2 habsent]

private theorem getElem?_absent (h : List.Forall₂ (SameValue env env') names names') (i : Nat) :
    names'[i]? = some "" ↔ names[i]? = some "" := by
  induction h generalizing i with
  | nil => simp
  | cons hname _ ih =>
      cases i with
      | zero => simpa using hname.1
      | succ i => simpa using ih i

variable [Operand V]

private theorem rounds_refines (hname : n'.name = n.name) {body body' : Body V}
    (h : ∀ iteration condition carried,
      Refines (body.meaning env (loopFeeds body.graph.inputs iteration condition carried))
        (body'.meaning env' (loopFeeds body'.graph.inputs iteration condition carried)))
    (limit : Option Number) (budget iteration : Nat) (condition : Bool) (carried : List V) :
    Refines (rounds n body env limit budget iteration condition carried)
      (rounds n' body' env' limit budget iteration condition carried) := by
  induction budget generalizing iteration condition carried with
  | zero =>
      unfold rounds
      split
      · exact .error _ _
      · exact .refl _
  | succ budget ih =>
      unfold rounds
      split
      · refine (h _ _ _).bind fun values => ?_
        cases values with
        | nil => exact .error _ _
        | cons next state =>
            rw [hname]
            exact (Refines.refl _).bind fun value => ih _ _ _
      · exact .refl _

private theorem runLoop_refines (hname : n'.name = n.name)
    (hinputs : List.Forall₂ (SameValue env env') n.inputs n'.inputs)
    (hbodies : List.Forall₂ (AnsweringBody "Loop" env env') bodies bodies') (operands : List V) :
    Refines (runLoop m n bodies env operands) (runLoop m n' bodies' env' operands) := by
  have hoperand (i : Nat) : operand n' operands i = operand n operands i := by
    simp only [operand, hname]
  have hlimit : Refines (tripLimit n operands) (tripLimit n' operands) := .of_toOption (by
    simp only [tripLimit, getElem?_absent hinputs, hoperand, hname])
  have hcondition : Refines (firstCondition n operands) (firstCondition n' operands) :=
    .of_toOption (by simp only [firstCondition, getElem?_absent hinputs, hoperand, hname])
  have hfound := find?_answering hbodies "body"
  rw [runLoop_eq, runLoop_eq]
  revert hfound
  generalize hkey : (bodies.find? fun body => body.key == "body") = found
  generalize (bodies'.find? fun body => body.key == "body") = found'
  rintro (⟨hbody⟩ | -)
  · have hkey := List.find?_some hkey
    rw [beq_iff_eq] at hkey
    refine hlimit.bind fun limit => hcondition.bind fun condition => ?_
    rw [hbody.outputs]
    split
    · exact rounds_refines hname (hbody.round rfl hkey) _ _ _ _ _
    · exact .error _ _
  · exact .error _ _

private theorem runBranch_refines (hname : n'.name = n.name)
    (hbodies : List.Forall₂ (AnsweringBody "If" env env') bodies bodies') (operands : List V) :
    Refines (runBranch n bodies env operands) (runBranch n' bodies' env' operands) := by
  have hoperand : operand n' operands 0 = operand n operands 0 := by
    simp only [operand, hname]
  unfold runBranch
  rw [hoperand, hname]
  refine (Refines.refl _).bind fun value => (Refines.refl _).bind fun condition => ?_
  dsimp only
  have hfound := find?_answering hbodies (if holds condition then "then_branch" else "else_branch")
  revert hfound
  generalize (bodies.find? _) = found
  generalize (bodies'.find? _) = found'
  rintro (⟨hbody⟩ | -)
  · exact hbody.branch rfl
  · exact .error _ _

/-- A node has every result that it had, if its bodies have what it asks them for. -/
theorem runNode_answers (hname : n'.name = n.name) (hop : n'.op = n.op)
    (hcompute : ∀ operands, Refines (m.compute n operands) (m.compute n' operands))
    (hinputs : List.Forall₂ (SameValue env env') n.inputs n'.inputs)
    (hbodies : List.Forall₂ (AnsweringBody n.op env env') bodies bodies') :
    Refines (runNode m n bodies env) (runNode m n' bodies' env') := by
  have hpresent : Refines ((n.inputs.filter (· != "")).mapM (lookup env))
      ((n'.inputs.filter (· != "")).mapM (lookup env')) := .of_toOption (by
    simp only [toOption_mapM, toOption_lookup, mapM_present hinputs])
  unfold runNode
  rw [hop]
  refine hpresent.bind fun present => ?_
  split
  · rename_i hloop
    rw [hloop] at hbodies
    refine Refines.bind (.of_toOption ?_) fun operands =>
      runLoop_refines hname hinputs hbodies operands
    simp only [toOption_mapM, apply_ite Except.toOption, toOption_pure, toOption_lookup,
      mapM_slots _ hinputs]
  · split
    · rename_i hif
      rw [hif] at hbodies
      exact runBranch_refines hname hbodies present
    · exact hcompute present

/-- A node has every result that it had, if its bodies have. -/
theorem runNode_refines (h : RefinedNode m env env' bodies bodies' n n') :
    Refines (runNode m n bodies env) (runNode m n' bodies' env') :=
  runNode_answers h.name h.op h.compute h.inputs
    (h.bodies.imp fun _ _ hbody => hbody.answering n.op)

/-- Nodes of one kind that read the same values yield the same values. -/
theorem runNode_congr (h : SameNode m env env' bodies bodies' n n') :
    (runNode m n' bodies' env').toOption = (runNode m n bodies env).toOption :=
  (runNode_refines h.refined).toOption_eq (runNode_refines h.symm.refined)

end Same

/-! ## Bindings -/

theorem lookup_cons_of_ne {name key : String} (h : name ≠ key) (value : V) (b : Bindings V) :
    List.lookup name ((key, value) :: b) = b.lookup name := by
  rw [List.lookup_cons, beq_false_of_ne h]

theorem lookup_filter (p : String → Bool) (b : Bindings V) (name : String) :
    (b.filter fun entry => p entry.1).lookup name = if p name then b.lookup name else none := by
  induction b with
  | nil => simp
  | cons entry rest ih =>
      obtain ⟨first, value⟩ := entry
      by_cases hname : name = first
      · subst hname
        by_cases hkept : p name = true
        · simp [hkept]
        · simpa [hkept] using ih
      · rw [List.filter_cons, lookup_cons_of_ne hname, ← ih]
        split
        · exact lookup_cons_of_ne hname _ _
        · rfl

/-- Whether the names of some outputs are bound to the values that are yielded for them. Absent
outputs are bound to nothing. -/
def Yields (outputs : List String) (values : List V) (b : Bindings V) : Prop :=
  ∀ (i : Nat) (name : String), outputs[i]? = some name → name ≠ "" →
    ∃ value, values[i]? = some value ∧ b.lookup name = some value

section Yields

variable {name : String} {outputs : List String} {value : V} {values : List V} {b c : Bindings V}

theorem yields_nil : Yields [] values b := fun i name hname => by simp at hname

theorem yields_cons_absent : Yields ("" :: outputs) values b ↔ Yields outputs (values.drop 1) b := by
  constructor
  · intro h i name hname hne
    obtain ⟨value, hvalue, hbound⟩ := h (i + 1) name (by simpa using hname) hne
    exact ⟨value, by simpa [Nat.add_comm] using hvalue, hbound⟩
  · intro h i name hname hne
    cases i with
    | zero => exact absurd (by simpa using hname.symm) hne
    | succ i =>
        obtain ⟨value, hvalue, hbound⟩ := h i name (by simpa using hname) hne
        exact ⟨value, by simpa [Nat.add_comm] using hvalue, hbound⟩

theorem yields_cons_cons (hne : name ≠ "") :
    Yields (name :: outputs) (value :: values) b ↔
      b.lookup name = some value ∧ Yields outputs values b := by
  constructor
  · intro h
    obtain ⟨_, hvalue, hbound⟩ := h 0 name rfl hne
    obtain rfl := Option.some.inj hvalue
    exact ⟨hbound, fun i name hname => h (i + 1) name (by simpa using hname)⟩
  · rintro ⟨hbound, h⟩ i other hother
    cases i with
    | zero =>
        obtain rfl : name = other := by simpa using hother
        exact fun _ => ⟨value, rfl, hbound⟩
    | succ i => exact h i other (by simpa using hother)

theorem not_yields_cons_nil (hne : name ≠ "") : ¬ Yields (name :: outputs) [] b := by
  intro h
  obtain ⟨_, hvalue, -⟩ := h 0 name rfl hne
  cases hvalue

/-- What is yielded stays yielded as long as its names stay bound. -/
theorem Yields.congr (h : Yields outputs values b)
    (hsame : ∀ name ∈ outputs, name ≠ "" → c.lookup name = b.lookup name) :
    Yields outputs values c := by
  intro i name hname hne
  obtain ⟨value, hvalue, hbound⟩ := h i name hname hne
  exact ⟨value, hvalue, (hsame name (List.mem_of_getElem? hname) hne).trans hbound⟩

/-- What is yielded under other names that are bound to the same values. -/
theorem yields_map {f : String → String}
    (h : ∀ name ∈ outputs, (f name = "" ↔ name = "") ∧
      (name ≠ "" → c.lookup (f name) = b.lookup name)) :
    Yields (outputs.map f) values c ↔ Yields outputs values b := by
  constructor
  · intro hyields i name hname hne
    obtain ⟨hempty, hsame⟩ := h name (List.mem_of_getElem? hname)
    have hmapped : (outputs.map f)[i]? = some (f name) := by simp [hname]
    obtain ⟨value, hvalue, hbound⟩ := hyields i (f name) hmapped fun e => hne (hempty.1 e)
    exact ⟨value, hvalue, (hsame hne).symm.trans hbound⟩
  · intro hyields i _ hmapped hne
    rw [List.getElem?_map] at hmapped
    obtain ⟨name, hname, rfl⟩ := Option.map_eq_some_iff.1 hmapped
    obtain ⟨hempty, hsame⟩ := h name (List.mem_of_getElem? hname)
    have hpresent : name ≠ "" := fun e => hne (hempty.2 e)
    obtain ⟨value, hvalue, hbound⟩ := hyields i name hname hpresent
    exact ⟨value, hvalue, (hsame hpresent).trans hbound⟩

/-- What has been bound when the outputs of a node were, provided that they have distinct names. -/
theorem bindOutputs_ok {n : Node} (hnodup : (outputs.filter (· != "")).Nodup)
    (h : bindOutputs n outputs values b = .ok c) :
    Yields outputs values c ∧
      ∀ name, name ∉ outputs.filter (· != "") → c.lookup name = b.lookup name := by
  induction outputs generalizing values b with
  | nil =>
      cases h
      exact ⟨yields_nil, fun _ _ => rfl⟩
  | cons output rest ih =>
      unfold bindOutputs at h
      by_cases habsent : output = ""
      · subst habsent
        rw [if_pos rfl] at h
        have hfilter : ("" :: rest).filter (· != "") = rest.filter (· != "") := by simp
        rw [hfilter] at hnodup ⊢
        rw [yields_cons_absent]
        exact ih hnodup h
      · rw [if_neg habsent] at h
        have hfilter : (output :: rest).filter (· != "") = output :: rest.filter (· != "") := by
          simp [habsent]
        rw [hfilter] at hnodup ⊢
        obtain ⟨hnotin, hnodup⟩ := List.nodup_cons.1 hnodup
        cases values with
        | nil => cases h
        | cons value others =>
            obtain ⟨hyields, hkept⟩ := ih hnodup h
            refine ⟨(yields_cons_cons habsent).2 ⟨?_, hyields⟩, fun name hname => ?_⟩
            · rw [hkept output hnotin, List.lookup_cons_self]
            · rw [List.mem_cons, not_or] at hname
              rw [hkept name hname.2, lookup_cons_of_ne hname.1]

/-- Where the values of a node agree with what is bound in the end, they can be bound. -/
theorem exists_bindOutputs (n : Node) (b : Bindings V) (h : Yields outputs values c) :
    ∃ b', bindOutputs n outputs values b = .ok b' ∧ ∀ name, b'.lookup name =
      if name ∈ outputs.filter (· != "") then c.lookup name else b.lookup name := by
  induction outputs generalizing values b with
  | nil => exact ⟨b, rfl, fun name => by simp⟩
  | cons output rest ih =>
      unfold bindOutputs
      by_cases habsent : output = ""
      · subst habsent
        simpa using ih b (yields_cons_absent.1 h)
      · rw [if_neg habsent]
        have hfilter : (output :: rest).filter (· != "") = output :: rest.filter (· != "") := by
          simp [habsent]
        rw [hfilter]
        cases values with
        | nil => exact absurd h (not_yields_cons_nil habsent)
        | cons value others =>
            obtain ⟨hbound, hrest⟩ := (yields_cons_cons habsent).1 h
            obtain ⟨b', hb', hlookup⟩ := ih ((output, value) :: b) hrest
            refine ⟨b', hb', fun name => ?_⟩
            rw [hlookup]
            by_cases hname : name = output
            · simp [hname, hbound]
            · simp [hname, lookup_cons_of_ne]

end Yields

/-- What has been bound when the inputs of a graph were. -/
theorem bindInputs_ok {g : Graph} {feeds : String → Option V} {inputs : List String}
    {b c : Bindings V} (h : bindInputs g feeds inputs b = .ok c) :
    (∀ name ∈ inputs, (feeds name).isSome = true) ∧
      ∀ name, c.lookup name = if name ∈ inputs then feeds name else b.lookup name := by
  induction inputs generalizing b with
  | nil =>
      cases h
      simp
  | cons input rest ih =>
      unfold bindInputs at h
      cases hfed : feeds input with
      | none =>
          rw [hfed] at h
          cases h
      | some value =>
          rw [hfed] at h
          obtain ⟨hrest, hlookup⟩ := ih h
          refine ⟨List.forall_mem_cons.2 ⟨by simp [hfed], hrest⟩, fun name => ?_⟩
          rw [hlookup]
          by_cases hname : name = input
          · simp [hname, hfed]
          · simp [hname, lookup_cons_of_ne]

theorem exists_bindInputs (g : Graph) (feeds : String → Option V) {inputs : List String}
    (b : Bindings V) (h : ∀ name ∈ inputs, (feeds name).isSome = true) :
    ∃ c, bindInputs g feeds inputs b = .ok c := by
  induction inputs generalizing b with
  | nil => exact ⟨b, rfl⟩
  | cons input rest ih =>
      obtain ⟨hinput, hrest⟩ := List.forall_mem_cons.1 h
      obtain ⟨value, hvalue⟩ := Option.isSome_iff_exists.1 hinput
      unfold bindInputs
      rw [hvalue]
      exact ih _ hrest

/-! ## Runs over sorted nodes -/

/-- Whether no node in a list reads what it yields itself or what a later one yields. -/
def Sorted : List Node → Prop
  | [] => True
  | n :: rest => (∀ name ∈ n.reads, ∀ k ∈ n :: rest, name ∉ k.results) ∧ Sorted rest

/-- The nodes of an orderly graph in dependency order are sorted. -/
theorem exists_sorted {g : Graph} (h : g.Orderly) :
    ∃ order, g.topologicalOrder = .ok order ∧ (g.nodesAt order).Perm g.nodes ∧
      Sorted (g.nodesAt order) := by
  obtain ⟨order, horder⟩ := h.exists_order
  obtain ⟨rfl, hperm⟩ := Graph.topologicalOrder_ok horder
  refine ⟨_, horder, Graph.nodesAt_perm horder, ?_⟩
  have hlater : (schedule g.dependencies).Pairwise fun i j => ¬ g.DependsOn i j := by
    refine List.pairwise_iff_getElem.2 fun i j hi hj hij hdepends => ?_
    have := Graph.idxOf_lt_of_dependsOn (List.getElem_mem hi) hdepends
    rw [(nodup_schedule _).idxOf_getElem, (nodup_schedule _).idxOf_getElem] at this
    omega
  have hself : ∀ i ∈ schedule g.dependencies, ¬ g.DependsOn i i := fun i hi hdepends =>
    Nat.lt_irrefl _ (Graph.idxOf_lt_of_dependsOn hi hdepends)
  generalize schedule g.dependencies = order at hlater hself
  induction order with
  | nil => trivial
  | cons i rest ih =>
      obtain ⟨hfirst, hlater⟩ := List.pairwise_cons.1 hlater
      obtain ⟨hhere, hself⟩ := List.forall_mem_cons.1 hself
      have hrest := ih hlater hself
      unfold Graph.nodesAt at hrest ⊢
      rw [List.filterMap_cons]
      cases hn : g.nodes[i]? with
      | none => exact hrest
      | some n =>
          refine ⟨fun name hname k hk hyields => ?_, hrest⟩
          -- the node that yields the name stands at a place that this one depends on
          have hdepends {j : Nat} (hj : g.nodes[j]? = some k) : g.DependsOn i j :=
            ⟨n, hn, name, hname, h.producerPlace?_eq hj hyields⟩
          rcases List.mem_cons.1 hk with rfl | hk
          · exact hhere (hdepends hn)
          · obtain ⟨j, hj, hk⟩ := List.mem_filterMap.1 hk
            exact hfirst j hj (hdepends hk)

section Runs

variable [Operand V]

/-- The bodies of a node with what they do. -/
def bodiesOf (m : Machine V) (n : Node) : List (Body V) :=
  n.bodies.map fun body => { key := body.1, graph := body.2, meaning := run m body.2 }

/-- Runs nodes one after the other. -/
def runNodes (m : Machine V) (outer : Environment V) (nodes : List Node) (b : Bindings V) :
    Except Failure (Bindings V) :=
  nodes.foldlM (fun b n => do
    let values ← runNode m n (bodiesOf m n) (b :: outer)
    bindOutputs n n.outputs values b) b

theorem runPlaces_eq (m : Machine V) (g : Graph) (outer : Environment V) (places : List Nat)
    (b : Bindings V) :
    runPlaces m g (g.nodes.map (bodiesOf m)) outer places b =
      runNodes m outer (g.nodesAt places) b := by
  induction places generalizing b with
  | nil => rfl
  | cons place rest ih =>
      unfold runPlaces runNodes Graph.nodesAt
      rw [List.filterMap_cons]
      cases hn : g.nodes[place]? with
      | none => exact ih b
      | some n =>
          have hbodies : (g.nodes.map (bodiesOf m)).getD place [] = bodiesOf m n := by
            rw [List.getD_eq_getElem?_getD, List.getElem?_map, hn]
            rfl
          simp only [hbodies, List.foldlM_cons, bind_assoc, ih]
          rfl

theorem run_eq_runNodes (m : Machine V) (g : Graph) (outer : Environment V)
    (feeds : String → Option V) :
    run m g outer feeds = (do
      let inputs ← bindInputs g feeds g.inputs []
      let order ← g.topologicalOrder
      let b ← runNodes m outer (g.nodesAt order) inputs
      g.outputs.mapM (lookup (b :: outer))) := by
  have hbodies : List.zipWith
      (fun (n : Node) meanings => List.zipWith
        (fun (body : String × Graph) meaning =>
          ({ key := body.1, graph := body.2, meaning } : Body V)) n.bodies meanings)
      g.nodes (g.nodes.map fun n => n.bodies.map fun body => run m body.2) =
      g.nodes.map (bodiesOf m) := by
    simp only [List.zipWith_map_right, List.zipWith_self]
    rfl
  rw [run_eq]
  unfold runWith
  simp only [hbodies, runPlaces_eq]

end Runs

end TensorGraph.Evaluation
