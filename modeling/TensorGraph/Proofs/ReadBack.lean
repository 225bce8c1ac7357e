import TensorGraph.Graph.Reader
import TensorGraph.Graph.Writer
import TensorGraph.Proofs.KeyedJson
import TensorGraph.Proofs.Legible
import TensorGraph.Proofs.Retabling

/-!
# Reading and writing

What the reader gives is legible, and what is legible is written in a form that the reader takes.

## Main results

* `Graph.legible_ofJson` -- the reader gives legible graphs.
* `Graph.keyedTree_read` -- in what is read from a text the keys of attributes differ.
* `Graph.ofJson_toJson` -- the form of a legible graph is read: as the same graph with other tables.
-/

namespace TensorGraph

open Json

/-! ## What the reader gives -/

namespace Json

theorem exists_of_mem_eachItem {α : Type} {read : Path → Json → Except Failure α} {path : Path}
    {start : Nat} {items : List Json} {xs : List α} (h : eachItem read path start items = .ok xs)
    {x : α} (hx : x ∈ xs) : ∃ place item, read place item = .ok x := by
  induction items generalizing start xs with
  | nil =>
      cases h
      cases hx
  | cons item rest ih =>
      obtain ⟨first, hfirst, h⟩ := bind_eq_ok h
      obtain ⟨others, hothers, h⟩ := bind_eq_ok h
      cases h
      rcases List.mem_cons.1 hx with rfl | hx
      · exact ⟨_, item, hfirst⟩
      · exact ih hothers hx

theorem exists_of_mem_expectItems {α : Type} {read : Path → Json → Except Failure α} {path : Path}
    {j : Option Json} {xs : List α} (h : expectItems read path j = .ok xs) {x : α} (hx : x ∈ xs) :
    ∃ place item, read place item = .ok x := by
  obtain ⟨items, -, hitems⟩ := bind_eq_ok h
  exact exists_of_mem_eachItem hitems hx

theorem expectNumber_finite {path : Path} {j : Option Json} {x : Number}
    (h : expectNumber path j = .ok x) : x.isFinite = true := by
  unfold expectNumber at h
  split at h
  · split at h
    · cases h
      assumption
    · cases h
  · cases h

theorem expectNumbers_finite {path : Path} {j : Option Json} {xs : List Number}
    (h : expectNumbers path j = .ok xs) : ∀ x ∈ xs, x.isFinite = true := fun _ hx => by
  obtain ⟨place, item, hread⟩ := exists_of_mem_expectItems h hx
  exact expectNumber_finite hread

/-- Sizes are natural numbers, each for the number in its place. -/
theorem sizesOfNumbers_ok {path : Path} {start : Nat} {xs : List Number} {ns : List Nat}
    (h : sizesOfNumbers path start xs = .ok ns) :
    (∀ x ∈ xs, x.toNat?.isSome = true) ∧ ns = xs.map fun x => x.toNat?.getD 0 := by
  induction xs generalizing start ns with
  | nil =>
      cases h
      exact ⟨by simp, rfl⟩
  | cons x rest ih =>
      unfold sizesOfNumbers at h
      split at h
      · cases h
      · rename_i n hn
        obtain ⟨others, hrest, rfl⟩ := map_eq_ok h
        obtain ⟨hall, rfl⟩ := ih hrest
        exact ⟨List.forall_mem_cons.2 ⟨by rw [hn]; rfl, hall⟩, by rw [List.map_cons, hn]; rfl⟩

theorem expectDType_mem {path : Path} {j : Option Json} {d : DType} (h : expectDType path j = .ok d) :
    d ∈ DType.all := by
  unfold expectDType at h
  split at h
  · split at h
    · rename_i found hfound
      cases h
      exact (DType.mem_all_of_ofText? hfound).1
    · cases h
  · cases h

theorem optional_ok {α : Type} {read : Option Json → Except Failure α} {j : Option Json} {x : α}
    (h : optional read j = .ok (some x)) : read j = .ok x := by
  cases j with
  | none => cases h
  | some j =>
      obtain ⟨y, hread, heq⟩ := map_eq_ok h
      exact Option.some.inj heq ▸ hread

end Json

theorem ValueInfo.legible_ofJson {path : Path} {j : Json} {info : ValueInfo}
    (h : ValueInfo.ofJson path j = .ok info) : info.Legible := by
  unfold ValueInfo.ofJson at h
  obtain ⟨members, -, h⟩ := bind_eq_ok h
  obtain ⟨name, -, h⟩ := bind_eq_ok h
  obtain ⟨dtype, hdtype, h⟩ := bind_eq_ok h
  obtain ⟨shape, hshape, h⟩ := bind_eq_ok h
  cases h
  refine ⟨fun d hd => ?_, fun dims hdims d hd => ?_⟩
  · subst hd
    exact expectDType_mem (optional_ok hdtype)
  · subst hdims
    obtain ⟨place, item, hread⟩ := exists_of_mem_expectItems (optional_ok hshape) hd
    unfold expectSizeOrUnknown at hread
    split at hread
    · cases hread
    · obtain ⟨x, hx, hread⟩ := bind_eq_ok hread
      split at hread
      · cases hread
        exact ⟨expectNumber_finite hx, by assumption⟩
      · cases hread

theorem ValueInfo.legible_listOfJson {path : Path} {j : Option Json} {infos : List ValueInfo}
    (h : ValueInfo.listOfJson path j = .ok infos) : ∀ info ∈ infos, info.Legible := fun _ hinfo => by
  obtain ⟨place, item, hread⟩ := exists_of_mem_expectItems h hinfo
  exact ValueInfo.legible_ofJson hread

theorem Literal.legible_ofJson {path : Path} {j : Option Json} {value : Literal}
    (h : Literal.ofJson path j = .ok value) : value.Legible := by
  unfold Literal.ofJson at h
  obtain ⟨members, -, h⟩ := bind_eq_ok h
  obtain ⟨dtype, hdtype, h⟩ := bind_eq_ok h
  obtain ⟨⟨dims, sizes⟩, hdims, h⟩ := bind_eq_ok h
  obtain ⟨data, hdata, h⟩ := bind_eq_ok h
  split at h
  · rename_i hmeasured
    cases h
    obtain ⟨written, hwritten, hdims⟩ := bind_eq_ok hdims
    obtain ⟨natural, hnatural, hdims⟩ := bind_eq_ok hdims
    cases hdims
    obtain ⟨hall, rfl⟩ := sizesOfNumbers_ok hnatural
    exact ⟨expectDType_mem hdtype, fun d hd => ⟨expectNumbers_finite hwritten d hd, hall d hd⟩,
      expectNumbers_finite hdata, hmeasured⟩
  · cases h

/-! ## Reading step by step -/

/-- The value information among the members of a graph. -/
def Graph.infosOfJson (path : Path) (members : List (String × Json)) : Except Failure (List ValueInfo) :=
  match members.lookup "valueInfo" with
  | none => .ok []
  | some j => ValueInfo.listOfJson (path ++ [.key "valueInfo"]) (some j)

/-- The nodes among the members of a graph. -/
def Graph.nodesOfJson (path : Path) (members : List (String × Json)) : Except Failure (List Node) :=
  match members.lookup "nodes" with
  | some (.arr items) => Node.listOfJson (path ++ [.key "nodes"]) 0 items
  | _ => .error (.format (path ++ [.key "nodes"]) .array)

theorem Graph.ofJsonAt_obj (path : Path) (members : List (String × Json)) :
    Graph.ofJsonAt path (.obj members) = (do
      let valueInfo ← Graph.infosOfJson path members
      let name ← expectString (path ++ [.key "name"]) (members.lookup "name")
      let inputs ← ValueInfo.listOfJson (path ++ [.key "inputs"]) (members.lookup "inputs")
      let outputs ← ValueInfo.listOfJson (path ++ [.key "outputs"]) (members.lookup "outputs")
      let nodes ← Graph.nodesOfJson path members
      return Graph.assemble name inputs outputs valueInfo nodes) := by
  rw [Graph.ofJsonAt]
  unfold Graph.infosOfJson
  split
  all_goals
    rename_i hinfos
    simp only [hinfos]
    refine bind_congr (m := Except Failure) fun valueInfo => bind_congr (m := Except Failure) fun name =>
      bind_congr (m := Except Failure) fun inputs => bind_congr (m := Except Failure) fun outputs => ?_
    unfold Graph.nodesOfJson
    split
    · rename_i hitems
      simp only [hitems]
    · rename_i hnot
      split
      · rename_i items hitems
        exact absurd hitems (hnot items)
      · rfl

/-- A graph is read when all its members are read. -/
theorem Graph.ofJsonAt_members {path : Path} {members : List (String × Json)} {name : String}
    {valueInfo inputs outputs : List ValueInfo} {nodes : List Node}
    (hinfos : Graph.infosOfJson path members = .ok valueInfo)
    (hname : expectString (path ++ [.key "name"]) (members.lookup "name") = .ok name)
    (hinputs : ValueInfo.listOfJson (path ++ [.key "inputs"]) (members.lookup "inputs") = .ok inputs)
    (houtputs : ValueInfo.listOfJson (path ++ [.key "outputs"]) (members.lookup "outputs") =
      .ok outputs)
    (hnodes : Graph.nodesOfJson path members = .ok nodes) :
    Graph.ofJsonAt path (.obj members) = .ok (Graph.assemble name inputs outputs valueInfo nodes) := by
  simp only [Graph.ofJsonAt_obj, hinfos, hname, hinputs, houtputs, hnodes, Evaluation.ok_bind]
  rfl

/-- The attributes among the members of a node. -/
def Node.attributesOfJson (path : Path) (members : List (String × Json)) :
    Except Failure (List (String × Attribute)) :=
  match members.lookup "attributes" with
  | none => .ok []
  | some (.obj entries) => Attributes.ofJson (path ++ [.key "attributes"]) entries
  | some _ => .error (.format (path ++ [.key "attributes"]) .object)

theorem Node.ofJson_obj (path : Path) (members : List (String × Json)) :
    Node.ofJson path (.obj members) = (do
      let attributes ← Node.attributesOfJson path members
      let name ← expectString (path ++ [.key "name"]) (members.lookup "name")
      let op ← expectString (path ++ [.key "op"]) (members.lookup "op")
      let inputs ← expectStrings (path ++ [.key "inputs"]) (members.lookup "inputs")
      let outputs ← expectStrings (path ++ [.key "outputs"]) (members.lookup "outputs")
      return { name, op, inputs, outputs, attributes }) := by
  rw [Node.ofJson]
  unfold Node.attributesOfJson
  split
  · rename_i hnone
    simp only [hnone]
    rfl
  · rename_i hentries
    simp only [hentries]
  · rename_i j hnot hj
    simp only [hj]

/-! ## Induction on what is read -/

/-- Whether an attribute can be read again, given what holds of a body. -/
def Attribute.LegibleWith (P : Graph → Prop) : Attribute → Prop
  | .number x => x.isFinite = true
  | .text _ => True
  | .numbers xs => ∀ x ∈ xs, x.isFinite = true
  | .literal value => value.Legible
  | .body g => P g

/-- Whether attributes can be read again, given what holds of bodies. -/
def Attributes.LegibleWith (P : Graph → Prop) (attributes : List (String × Attribute)) : Prop :=
  ∀ entry ∈ attributes, Inherited.keeps entry.1 = true ∧ entry.2.LegibleWith P

/-- Whether a node can be read again, given what holds of its bodies. -/
def Node.LegibleWith (P : Graph → Prop) (n : Node) : Prop :=
  n.bookmarks = [] ∧ Attributes.LegibleWith P n.attributes

/-- Whether something holds of a graph that is put together by the reader if it holds of the bodies and,
where the value that is read is known to be keyed, the attributes of the nodes have different keys. -/
def Graph.HoldsOfRead (keyed : Prop) (P : Graph → Prop) : Prop :=
  ∀ name inputs outputs valueInfo nodes,
    (∀ info ∈ valueInfo ++ inputs ++ outputs, info.Legible) →
      (∀ n ∈ nodes, Node.LegibleWith P n ∧ (keyed → n.Keyed)) →
        P (Graph.assemble name inputs outputs valueInfo nodes)

section

variable {keyed : Prop} {P : Graph → Prop}

mutual

/-- What holds of a graph that is put together if it holds of the bodies holds of all that is read. -/
theorem Graph.HoldsOfRead.ofJsonAt (hP : Graph.HoldsOfRead keyed P) {path : Path} {g : Graph} :
    (j : Json) → (keyed → j.Keyed) → Graph.ofJsonAt path j = .ok g → P g
  | .obj members, hj, h => by
      rw [Graph.ofJsonAt_obj] at h
      obtain ⟨valueInfo, hvalueInfo, h⟩ := bind_eq_ok h
      obtain ⟨name, -, h⟩ := bind_eq_ok h
      obtain ⟨inputs, hinputs, h⟩ := bind_eq_ok h
      obtain ⟨outputs, houtputs, h⟩ := bind_eq_ok h
      obtain ⟨nodes, hnodes, h⟩ := bind_eq_ok h
      cases h
      have hinfos : ∀ info ∈ valueInfo, info.Legible := by
        unfold Graph.infosOfJson at hvalueInfo
        split at hvalueInfo
        · cases hvalueInfo
          simp
        · exact ValueInfo.legible_listOfJson hvalueInfo
      have hlegible : ∀ n ∈ nodes, n.LegibleWith P ∧ (keyed → n.Keyed) := by
        unfold Graph.nodesOfJson at hnodes
        split at hnodes
        · rename_i items hitems
          have := sizeOf_lookup hitems
          exact Graph.HoldsOfRead.nodeList hP items
            (fun hkeyed => ((hj hkeyed).lookup hitems).item) hnodes
        · cases hnodes
      refine hP name inputs outputs valueInfo nodes (fun info hinfo => ?_) hlegible
      simp only [List.mem_append] at hinfo
      rcases hinfo with (hinfo | hinfo) | hinfo
      · exact hinfos info hinfo
      · exact ValueInfo.legible_listOfJson hinputs info hinfo
      · exact ValueInfo.legible_listOfJson houtputs info hinfo
  | .null, _, h | .bool _, _, h | .num _, _, h | .str _, _, h | .arr _, _, h => by
      simp [Graph.ofJsonAt] at h
termination_by j => sizeOf j
decreasing_by
  simp only [Json.arr.sizeOf_spec] at this
  simp only [Json.obj.sizeOf_spec]
  omega

theorem Graph.HoldsOfRead.nodeList (hP : Graph.HoldsOfRead keyed P) {path : Path} {start : Nat}
    {nodes : List Node} :
    (items : List Json) → (keyed → ∀ item ∈ items, item.Keyed) →
      Node.listOfJson path start items = .ok nodes →
        ∀ n ∈ nodes, n.LegibleWith P ∧ (keyed → n.Keyed)
  | [], _, h => by
      rw [Node.listOfJson] at h
      cases h
      simp
  | item :: rest, hitems, h => by
      rw [Node.listOfJson] at h
      obtain ⟨first, hfirst, h⟩ := bind_eq_ok h
      obtain ⟨others, hothers, h⟩ := bind_eq_ok h
      cases h
      have hitems := fun hkeyed => List.forall_mem_cons.1 (hitems hkeyed)
      exact List.forall_mem_cons.2
        ⟨Graph.HoldsOfRead.node hP item (fun hkeyed => (hitems hkeyed).1) hfirst,
          Graph.HoldsOfRead.nodeList hP rest (fun hkeyed => (hitems hkeyed).2) hothers⟩
termination_by items => sizeOf items

theorem Graph.HoldsOfRead.node (hP : Graph.HoldsOfRead keyed P) {path : Path} {n : Node} :
    (j : Json) → (keyed → j.Keyed) → Node.ofJson path j = .ok n →
      n.LegibleWith P ∧ (keyed → n.Keyed)
  | .obj members, hj, h => by
      rw [Node.ofJson_obj] at h
      obtain ⟨attributes, hattributes, h⟩ := bind_eq_ok h
      obtain ⟨name, -, h⟩ := bind_eq_ok h
      obtain ⟨op, -, h⟩ := bind_eq_ok h
      obtain ⟨inputs, -, h⟩ := bind_eq_ok h
      obtain ⟨outputs, -, h⟩ := bind_eq_ok h
      cases h
      have hread : Attributes.LegibleWith P attributes ∧ (keyed → (attributes.map Prod.fst).Nodup) := by
        unfold Node.attributesOfJson at hattributes
        split at hattributes
        · cases hattributes
          exact ⟨List.forall_mem_nil _, fun _ => List.nodup_nil⟩
        · rename_i entries hentries
          have := sizeOf_lookup hentries
          obtain ⟨hlegible, hkeys⟩ := Graph.HoldsOfRead.attributes hP entries
            (fun hkeyed => ((hj hkeyed).lookup hentries).member) hattributes
          exact ⟨hlegible, fun hkeyed => ((hj hkeyed).lookup hentries).keys.sublist hkeys⟩
        · cases hattributes
      exact ⟨⟨rfl, hread.1⟩, hread.2⟩
  | .null, _, h | .bool _, _, h | .num _, _, h | .str _, _, h | .arr _, _, h => by
      simp [Node.ofJson] at h
termination_by j => sizeOf j
decreasing_by
  simp only [Json.obj.sizeOf_spec] at this ⊢
  omega

theorem Graph.HoldsOfRead.attributes (hP : Graph.HoldsOfRead keyed P) {path : Path}
    {attributes : List (String × Attribute)} :
    (entries : List (String × Json)) → (keyed → ∀ entry ∈ entries, entry.2.Keyed) →
      Attributes.ofJson path entries = .ok attributes →
        Attributes.LegibleWith P attributes ∧
          (attributes.map Prod.fst).Sublist (entries.map Prod.fst)
  | [], _, h => by
      rw [Attributes.ofJson] at h
      cases h
      exact ⟨List.forall_mem_nil _, List.Sublist.slnil⟩
  | (key, value) :: rest, hentries, h => by
      rw [Attributes.ofJson] at h
      obtain ⟨first, hfirst, h⟩ := bind_eq_ok h
      obtain ⟨others, hothers, h⟩ := bind_eq_ok h
      have hentries := fun hkeyed => List.forall_mem_cons.1 (hentries hkeyed)
      obtain ⟨hrest, hkeys⟩ :=
        Graph.HoldsOfRead.attributes hP rest (fun hkeyed => (hentries hkeyed).2) hothers
      cases h
      split
      · rename_i hkeeps
        have hvalue := Graph.HoldsOfRead.attribute hP value (fun hkeyed => (hentries hkeyed).1) hfirst
        exact ⟨List.forall_mem_cons.2 ⟨⟨hkeeps, hvalue⟩, hrest⟩, hkeys.cons_cons key⟩
      · exact ⟨hrest, hkeys.cons key⟩
termination_by entries => sizeOf entries

theorem Graph.HoldsOfRead.attribute (hP : Graph.HoldsOfRead keyed P) {path : Path} {value : Attribute} :
    (j : Json) → (keyed → j.Keyed) → Attribute.ofJson path j = .ok value → value.LegibleWith P
  | .num x, _, h => by
      rw [Attribute.ofJson] at h
      obtain ⟨found, hfound, rfl⟩ := map_eq_ok h
      exact expectNumber_finite hfound
  | .str s, _, h => by
      rw [Attribute.ofJson] at h
      cases h
      exact trivial
  | .arr items, _, h => by
      rw [Attribute.ofJson] at h
      obtain ⟨found, hfound, rfl⟩ := map_eq_ok h
      exact expectNumbers_finite hfound
  | .obj members, hj, h => by
      rw [Attribute.ofJson] at h
      split at h
      · obtain ⟨found, hfound, rfl⟩ := map_eq_ok h
        exact Literal.legible_ofJson hfound
      · split at h
        · rename_i j hj'
          obtain ⟨found, hfound, rfl⟩ := map_eq_ok h
          have := sizeOf_lookup hj'
          exact Graph.HoldsOfRead.ofJsonAt hP j (fun hkeyed => (hj hkeyed).lookup hj') hfound
        · cases h
  | .null, _, h | .bool _, _, h => by simp [Attribute.ofJson] at h
termination_by j => sizeOf j
decreasing_by
  simp only [Json.obj.sizeOf_spec]
  omega

end

theorem Graph.HoldsOfRead.ofJson (hP : Graph.HoldsOfRead False P) {j : Option Json} {g : Graph}
    (h : Graph.ofJson j = .ok g) : P g := by
  cases j with
  | none => cases h
  | some j => exact hP.ofJsonAt j False.elim h

end

theorem Attribute.LegibleWith.legible {value : Attribute} (h : value.LegibleWith Graph.Legible) :
    value.Legible := by
  cases value with
  | number x => exact .number h
  | text s => exact .text s
  | numbers xs => exact .numbers h
  | literal value => exact .literal h
  | body g => exact .body h

/-- What the reader gives is legible. -/
theorem Graph.legible_ofJson {j : Option Json} {g : Graph} (h : Graph.ofJson j = .ok g) : g.Legible := by
  refine Graph.HoldsOfRead.ofJson (fun name inputs outputs valueInfo nodes hinfos hnodes => ?_) h
  refine Graph.legible_iff.2 ⟨.ofList hinfos, fun n hn => Node.legible_iff.2 ⟨(hnodes n hn).1.1, ?_⟩⟩
  exact fun entry hentry => ((hnodes n hn).1.2 entry hentry).imp_right Attribute.LegibleWith.legible

/-- Where the objects of a value have different keys, so have the attributes in the graph that is read. -/
theorem Graph.keyedTree_ofJson {j : Json} {g : Graph} (hj : j.Keyed) (h : Graph.ofJson (some j) = .ok g) :
    Graph.KeyedTree g := by
  have hread : Graph.HoldsOfRead True Graph.KeyedTree := by
    intro name inputs outputs valueInfo nodes _ hnodes
    refine .intro (fun n hn => (hnodes n hn).2 trivial) fun n hn body hbody => ?_
    exact ((hnodes n hn).1.2 _ (Node.mem_bodies.1 hbody)).2
  exact hread.ofJsonAt j (fun _ => hj) h

/-- So in every graph that is read from a text no node has two attributes with one key. -/
theorem Graph.keyedTree_read {text : String} {j : Json} {g : Graph} (hj : Json.read? text = some j)
    (h : Graph.ofJson (some j) = .ok g) : Graph.KeyedTree g :=
  Graph.keyedTree_ofJson (Json.keyed_read? hj) h

/-! ## Reading what is written -/

namespace Json

theorem eachItem_map {α : Type} {read : Path → Json → Except Failure α} {write : α → Json} {xs : List α}
    (h : ∀ x ∈ xs, ∀ place, read place (write x) = .ok x) (path : Path) (start : Nat) :
    eachItem read path start (xs.map write) = .ok xs := by
  induction xs generalizing start with
  | nil => rfl
  | cons x rest ih =>
      rw [List.forall_mem_cons] at h
      rw [List.map_cons, eachItem, h.1, ih h.2]
      rfl

theorem expectItems_map {α : Type} {read : Path → Json → Except Failure α} {write : α → Json}
    {xs : List α} (h : ∀ x ∈ xs, ∀ place, read place (write x) = .ok x) (path : Path) :
    expectItems read path (some (.arr (xs.map write))) = .ok xs :=
  eachItem_map h path 0

theorem expectNumber_num {x : Number} (h : x.isFinite = true) (path : Path) :
    expectNumber path (some (.num x)) = .ok x := if_pos h

theorem expectNumbers_num {xs : List Number} (h : ∀ x ∈ xs, x.isFinite = true) (path : Path) :
    expectNumbers path (some (.arr (xs.map .num))) = .ok xs :=
  expectItems_map (fun x hx place => expectNumber_num (h x hx) place) path

theorem expectStrings_str (names : List String) (path : Path) :
    expectStrings path (some (.arr (names.map .str))) = .ok names :=
  expectItems_map (fun name _ place => (rfl : expectString place (some (.str name)) = .ok name)) path

theorem sizesOfNumbers_natural {xs : List Number} (h : ∀ x ∈ xs, x.Size) (path : Path) (start : Nat) :
    sizesOfNumbers path start xs = .ok (xs.map fun x => x.toNat?.getD 0) := by
  induction xs generalizing start with
  | nil => rfl
  | cons x rest ih =>
      rw [List.forall_mem_cons] at h
      obtain ⟨n, hn⟩ := Option.isSome_iff_exists.1 h.1.natural
      rw [sizesOfNumbers, hn, ih h.2, List.map_cons, hn]
      rfl

theorem expectDType_text {d : DType} (h : d ∈ DType.all) (path : Path) :
    expectDType path (some (.str d.text)) = .ok d := by
  rw [expectDType, DType.ofText?_text h]

end Json

theorem DType.toMember_of_mem {d : DType} (h : d ∈ all) : d.toMember = [("dtype", .str d.text)] := by
  have hname : d.name? = some d.text := by
    revert d
    decide
  rw [toMember, hname]
  rfl

theorem ValueInfo.ofJson_obj {path : Path} {members : List (String × Json)} {info : ValueInfo}
    (hname : expectString (path ++ [.key "name"]) (members.lookup "name") = .ok info.name)
    (hdtype : optional (expectDType (path ++ [.key "dtype"])) (members.lookup "dtype") = .ok info.dtype)
    (hshape : optional (expectItems expectSizeOrUnknown (path ++ [.key "shape"]))
      (members.lookup "shape") = .ok info.shape) :
    ValueInfo.ofJson path (.obj members) = .ok info := by
  unfold ValueInfo.ofJson
  simp only [expectObject, Evaluation.ok_bind, hname, hdtype, hshape]
  rfl

theorem ValueInfo.ofJson_toJson {info : ValueInfo} (h : info.Legible) (path : Path) :
    ValueInfo.ofJson path info.toJson = .ok info := by
  obtain ⟨name, dtype, shape⟩ := info
  have hshape {dims : List (Option Number)} {write : Option Number → Json} (heq : shape = some dims)
      (hunknown : write none = .null) (hsome : ∀ d, write (some d) = .num d) :
      expectItems expectSizeOrUnknown (path ++ [.key "shape"]) (some (.arr (dims.map write))) =
        .ok dims := by
    refine expectItems_map (fun d hd place => ?_) _
    cases d with
    | none => rw [hunknown, expectSizeOrUnknown]
    | some d =>
        have hsize := h.shape dims heq d hd
        simp only [hsome, expectSizeOrUnknown, expectNumber_num hsize.finite, Evaluation.ok_bind,
          hsize.natural, if_true]
        rfl
  unfold ValueInfo.toJson
  cases dtype with
  | none =>
      cases shape with
      | none => exact ValueInfo.ofJson_obj rfl rfl rfl
      | some dims =>
          exact ValueInfo.ofJson_obj rfl rfl
            (congrArg (Except.map some) (hshape rfl (by rfl) fun d => by rfl))
  | some d =>
      have hread := congrArg (Except.map some)
        (expectDType_text (h.dtype d rfl) (path ++ [.key "dtype"]))
      simp only [DType.toMember_of_mem (h.dtype d rfl)]
      cases shape with
      | none => exact ValueInfo.ofJson_obj rfl hread rfl
      | some dims =>
          exact ValueInfo.ofJson_obj rfl hread
            (congrArg (Except.map some) (hshape rfl (by rfl) fun d => by rfl))

theorem Literal.ofJson_toJson {value : Literal} (h : value.Legible) (path : Path) :
    Literal.ofJson path (some value.toJson) = .ok value := by
  have hsizes : expectSizes (path ++ [.key "dims"]) (some (.arr (value.dims.map .num))) =
      .ok (value.dims, value.sizes) := by
    rw [expectSizes, expectNumbers_num fun d hd => (h.dims d hd).finite, Evaluation.ok_bind,
      sizesOfNumbers_natural h.dims]
    rfl
  unfold Literal.ofJson Literal.toJson
  rw [DType.toMember_of_mem h.dtype]
  simp [expectObject, List.lookup_cons, hsizes, expectDType_text h.dtype, expectNumbers_num h.data,
    h.measured]

theorem Attribute.ofJson_tensor (path : Path) (j : Json) :
    Attribute.ofJson path (.obj [("tensor", j)]) =
      (Literal.ofJson (path ++ [.key "tensor"]) (some j)).map .literal := by
  rw [Attribute.ofJson]
  rfl

theorem Attribute.ofJson_graph (path : Path) (j : Json) :
    Attribute.ofJson path (.obj [("graph", j)]) =
      (Graph.ofJsonAt (path ++ [.key "graph"]) j).map .body := by
  rw [Attribute.ofJson]
  rfl

/-- Attributes are read with the graphs that their bodies are read as. -/
theorem Attributes.ofJson_toJson {attributes : List (String × Attribute)}
    (h : Attributes.Legible attributes) (write : Graph → Json) (reread : Graph → Graph)
    (hbodies : ∀ key body, (key, Attribute.body body) ∈ attributes →
      ∀ path, Graph.ofJsonAt path (write body) = .ok (reread body)) (path : Path) :
    Attributes.ofJson path (Attributes.toJson attributes
        ((attributes.filterMap fun (key, value) => value.body?.map (key, ·)).map
          fun body => write body.2)) =
      .ok (attributes.map fun entry => (entry.1, entry.2.mapBody reread)) := by
  induction attributes with
  | nil =>
      rw [Attributes.toJson, Attributes.ofJson]
      rfl
  | cons entry rest ih =>
      obtain ⟨key, value⟩ := entry
      obtain ⟨⟨hkey, hvalue⟩, hlegible⟩ := List.forall_mem_cons.1 h
      have hrest := ih hlegible fun key body hbody => hbodies key body (List.mem_cons_of_mem _ hbody)
      have hone : ∀ {j : Json} {first : Attribute}, Attribute.ofJson (path ++ [.key key]) j = .ok first →
          Attributes.ofJson path ((key, j) :: Attributes.toJson rest
            ((rest.filterMap fun (key, value) => value.body?.map (key, ·)).map
              fun body => write body.2)) =
            .ok ((key, first) :: rest.map fun entry => (entry.1, entry.2.mapBody reread)) := by
        intro j first hfirst
        rw [Attributes.ofJson, hfirst, hrest, Evaluation.ok_bind, Evaluation.ok_bind, if_pos hkey]
        rfl
      cases hvalue with
      | @number x finite =>
          refine hone ?_
          rw [Attribute.ofJson, expectNumber_num finite]
          rfl
      | text s =>
          refine hone ?_
          rw [Attribute.ofJson]
          rfl
      | @numbers xs finite =>
          refine hone ?_
          rw [Attribute.ofJson, expectNumbers_num finite]
          rfl
      | @literal value legible =>
          refine hone ?_
          rw [Attribute.ofJson_tensor, Literal.ofJson_toJson legible]
          rfl
      | @body g legible =>
          refine hone ?_
          rw [Attribute.ofJson_graph, hbodies key g List.mem_cons_self]
          rfl

/-- A node is read with the graphs that its bodies are read as, and without bookmarks. -/
theorem Node.ofJson_toJsonWith {n : Node} (h : n.Legible) (write : Graph → Json)
    (reread : Graph → Graph)
    (hbodies : ∀ body ∈ n.bodies, ∀ path, Graph.ofJsonAt path (write body.2) = .ok (reread body.2))
    (path : Path) :
    Node.ofJson path (n.toJsonWith (n.bodies.map fun body => write body.2)) = .ok (n.recast reread) := by
  have hattributes := Attributes.ofJson_toJson h.attributes write reread
    (fun key body hbody => hbodies (key, body) (Node.mem_bodies.2 hbody)) (path ++ [.key "attributes"])
  change Attributes.ofJson _ (Attributes.toJson n.attributes (n.bodies.map fun body => write body.2)) = _
    at hattributes
  unfold Node.toJsonWith
  simp only
  generalize Attributes.toJson n.attributes (n.bodies.map fun body => write body.2) = entries
    at hattributes
  rw [Node.ofJson_obj]
  cases entries with
  | nil =>
      rw [Attributes.ofJson] at hattributes
      have hnone : n.attributes.map (fun entry => (entry.1, entry.2.mapBody reread)) = [] :=
        (Except.ok.inj hattributes).symm
      simp [Node.attributesOfJson, List.lookup_cons, expectString, expectStrings_str, Node.recast, hnone]
  | cons entry rest =>
      simp [Node.attributesOfJson, List.lookup_cons, expectString, expectStrings_str, Node.recast, hattributes]

/-! ## Trees -/

namespace Graph

/-- The table that is read where a graph is written: what is known of the values that its nodes
produce, and of what comes in and goes out. -/
def writtenInfos (enclosing : List Graph) (g : Graph) : InfoTable :=
  InfoTable.ofList (g.producedInfos enclosing ++ g.inputInfos ++ g.outputInfos)

/-- The graph that is read where a graph is written that stands inside of others. -/
def reread (enclosing : List Graph) (g : Graph) : Graph := g.retabled writtenInfos enclosing

theorem Legible.infoOf {g : Graph} (hg : g.Legible) (name : String) : (g.infoOf name).Legible := by
  unfold Graph.infoOf
  cases hfound : g.infos.get? name with
  | none => exact ⟨by simp, by simp⟩
  | some info => exact hg.infos.get? hfound

theorem Legible.producedInfos {enclosing : List Graph} {g : Graph} (hg : g.Legible)
    (henclosing : ∀ scope ∈ enclosing, scope.infos.Legible) :
    ∀ info ∈ g.producedInfos enclosing, info.Legible := by
  intro info hinfo
  obtain ⟨⟨n, i⟩, -, hinfo⟩ := List.mem_flatMap.1 hinfo
  obtain ⟨output, -, hinfo⟩ := List.mem_filterMap.1 hinfo
  split at hinfo
  · cases hinfo
  · split at hinfo
    · exact hg.info? henclosing hinfo
    · cases hinfo

theorem listOfJson_map {infos : List ValueInfo} (h : ∀ info ∈ infos, info.Legible) (path : Path) :
    ValueInfo.listOfJson path (some (.arr (infos.map ValueInfo.toJson))) = .ok infos :=
  expectItems_map (fun info hinfo place => ValueInfo.ofJson_toJson (h info hinfo) place) path

theorem nodes_listOfJson {α : Type} {xs : List α} {write : α → Json} {read : α → Node} 
    (h : ∀ x ∈ xs, ∀ path, Node.ofJson path (write x) = .ok (read x)) (path : Path) (start : Nat) :
    Node.listOfJson path start (xs.map write) = .ok (xs.map read) := by
  induction xs generalizing start with
  | nil =>
      rw [List.map_nil, Node.listOfJson]
      rfl
  | cons x rest ih =>
      rw [List.forall_mem_cons] at h
      rw [List.map_cons, Node.listOfJson, h.1, ih h.2]
      rfl

/-- Whatever legible graph is written, a graph is read. -/
theorem ofJsonAt_toJsonIn {enclosing : List Graph} {g : Graph} (hg : g.Legible)
    (henclosing : ∀ scope ∈ enclosing, scope.infos.Legible) (path : Path) :
    ofJsonAt path (g.toJsonIn enclosing) = .ok (g.reread enclosing) := by
  induction g using bodyInduction generalizing enclosing path with
  | step g ih =>
      have hinside : ∀ scope ∈ g :: enclosing, scope.infos.Legible :=
        List.forall_mem_cons.2 ⟨hg.infos, henclosing⟩
      have hnodes := nodes_listOfJson (fun n hn path =>
        Node.ofJson_toJsonWith (hg.node hn) (toJsonIn (g :: enclosing)) (reread (g :: enclosing))
          (fun body hbody path => ih n hn body hbody ((hg.node hn).body hbody) hinside path) path)
        (path ++ [.key "nodes"]) 0
      have hfront (names : List String) (path : Path) :
          ValueInfo.listOfJson path (some (.arr ((names.map g.infoOf).map ValueInfo.toJson))) =
            .ok (names.map g.infoOf) := by
        refine listOfJson_map (fun info hinfo => ?_) path
        obtain ⟨name, -, rfl⟩ := List.mem_map.1 hinfo
        exact hg.infoOf name
      have hproduced := listOfJson_map (hg.producedInfos henclosing) (path ++ [.key "valueInfo"])
      have hassemble : assemble g.name (g.inputs.map g.infoOf) (g.outputs.map g.infoOf)
          (g.producedInfos enclosing) (g.nodes.map (Node.recast (reread (g :: enclosing)))) =
            g.reread enclosing := by
        unfold reread
        rw [retabled_eq]
        simp only [assemble, List.map_map, Function.comp_def, name_infoOf, List.map_id']
        rfl
      rw [toJsonIn_eq, toJsonWith, ← hassemble]
      generalize g.producedInfos enclosing = produced at hproduced
      -- without value information there is no member for it
      cases produced with
      | nil => exact ofJsonAt_members rfl rfl (hfront _ _) (hfront _ _) hnodes
      | cons info rest => exact ofJsonAt_members hproduced rfl (hfront _ _) (hfront _ _) hnodes

theorem ofJson_toJson {g : Graph} (hg : g.Legible) : ofJson (some g.toJson) = .ok (g.reread []) :=
  ofJsonAt_toJsonIn hg (by simp) []

end Graph

end TensorGraph
