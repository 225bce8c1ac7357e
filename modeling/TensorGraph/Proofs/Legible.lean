import TensorGraph.Inherited
import TensorGraph.Optimizer.Transposes
import TensorGraph.Proofs.Measuring
import TensorGraph.Proofs.Ordering

/-!
# Legible graphs

A graph is legible if all that it says can be written down and read again: its numbers are finite, the
sizes of axes are natural, element types are listed ones, literals have as many entries as their sizes
say, and no attribute is under a name that keeps nothing. What the reader gives is legible, and the
steps from which all changes of graphs are made keep it so.

## Main results

* `Literal.Legible.transpose` -- a literal that can be transposed stays legible.
* `Graph.legible_iff` -- a graph is legible if its table and its nodes are.
* `Graph.Legible.substituteOuter`, `Graph.Legible.renameValue`, `Graph.Legible.rebindOutput` -- a graph
  stays legible when values get other names.
-/

namespace TensorGraph

/-! ## Numbers, tables and literals -/

/-- Whether a number is read as the size of an axis. -/
structure Number.Size (x : Number) : Prop where
  finite : x.isFinite = true
  natural : x.toNat?.isSome = true

theorem Number.size_ofNat (n : Nat) : (Number.ofNat n).Size := ⟨rfl, rfl⟩

/-- What is known of a value, in listed element types and in natural sizes. -/
structure ValueInfo.Legible (info : ValueInfo) : Prop where
  dtype : ∀ d, info.dtype = some d → d ∈ DType.all
  shape : ∀ dims, info.shape = some dims → ∀ d, some d ∈ dims → d.Size

/-- Whether each entry of a table is legible. -/
def InfoTable.Legible (t : InfoTable) : Prop := ∀ info ∈ t.entries, info.Legible

@[simp] theorem InfoTable.legible_empty : empty.Legible := fun _ h => nomatch h

namespace InfoTable.Legible

variable {t : InfoTable}

theorem set (ht : t.Legible) {info : ValueInfo} (hinfo : info.Legible) : (t.set info).Legible := by
  intro other hother
  rcases mem_entries_set.1 hother with rfl | ⟨hother, -⟩
  · exact hinfo
  · exact ht other hother

theorem erase (ht : t.Legible) (name : String) : (t.erase name).Legible :=
  fun other hother => ht other (mem_entries_erase.1 hother).1

theorem unless_erase (ht : t.Legible) (kept : Prop) [Decidable kept] (name : String) :
    (if kept then t else t.erase name).Legible := by
  split
  · exact ht
  · exact ht.erase name

theorem foldl_erase (ht : t.Legible) (names : List String) : (names.foldl InfoTable.erase t).Legible := by
  induction names generalizing t with
  | nil => exact ht
  | cons name rest ih => exact ih (ht.erase name)

theorem get? (ht : t.Legible) {name : String} {info : ValueInfo} (h : t.get? name = some info) :
    info.Legible :=
  ht info (List.mem_of_find?_eq_some h)

theorem ofList {infos : List ValueInfo} (h : ∀ info ∈ infos, info.Legible) :
    (InfoTable.ofList infos).Legible := by
  unfold InfoTable.ofList
  have hfold : ∀ t : InfoTable, t.Legible → (infos.foldl InfoTable.set t).Legible := by
    induction infos with
    | nil => exact fun _ ht => ht
    | cons info rest ih =>
        rw [List.forall_mem_cons] at h
        exact fun t ht => ih h.2 _ (ht.set h.1)
  exact hfold .empty fun info hinfo => by cases hinfo

theorem movedInfos (ht : t.Legible) (old new : String) : (Graph.movedInfos t old new).Legible := by
  unfold Graph.movedInfos
  split
  · exact ht
  · rename_i info hinfo
    have hlegible := ht.get? hinfo
    simp only
    split
    · exact ht.erase old
    · exact (ht.erase old).set ⟨hlegible.dtype, hlegible.shape⟩

end InfoTable.Legible

/-- A literal that is read as it is written: there are as many entries as the sizes say, computed in
doubles. -/
structure Literal.Legible (t : Literal) : Prop where
  dtype : t.dtype ∈ DType.all
  dims : ∀ d ∈ t.dims, d.Size
  data : ∀ x ∈ t.data, x.isFinite = true
  measured : Shape.measured t.sizes = .ofInt t.data.length

theorem Permutation.forall_mem_arrange {α : Type} [Inhabited α] {P : α → Prop} {xs : List α}
    (hdefault : P default) (h : ∀ x ∈ xs, P x) (p : List Nat) : ∀ x ∈ arrange xs p, P x := by
  intro x hx
  obtain ⟨axis, -, rfl⟩ := List.mem_map.1 hx
  rw [List.getD_eq_getElem?_getD]
  cases haxis : xs[axis]? with
  | none => exact hdefault
  | some y => exact h y (List.mem_of_getElem? haxis)

namespace Literal

theorem legible_listLiteral {xs : List Number} (h : ∀ x ∈ xs, x.isFinite = true) :
    (Transposes.listLiteral xs).Legible where
  dtype := show DType.int64 ∈ DType.all by decide
  dims d hd := by
    obtain rfl := List.mem_singleton.1 hd
    exact Number.size_ofNat _
  data := h
  measured := Shape.measured_singleton xs.length

namespace Legible

variable {t u : Literal}

theorem padToRank (ht : t.Legible) {rank : Nat} (h : t.padToRank (.ofNat rank) = .ok u) :
    u.Legible ∧ u.dims.length = rank := by
  obtain ⟨count, rfl, hlength⟩ := padToRank_ok h
  refine ⟨⟨ht.dtype, fun d hd => ?_, ht.data, ?_⟩, hlength⟩
  · rcases List.mem_append.1 hd with hd | hd
    · exact List.eq_of_mem_replicate hd ▸ Number.size_ofNat 1
    · exact ht.dims d hd
  · rw [sizes_padded, Shape.measured_replicate_one]
    exact ht.measured

/-- A literal that can be counted in its new order stays legible: it is counted exactly then, and has
the same entries. -/
theorem transpose (ht : t.Legible) {p : List Nat} (hp : Permutation.IsPermutation p)
    (hlength : p.length = t.dims.length) (h : t.transpose p = .ok u) : u.Legible := by
  have hcount : ∃ n, (Shape.measured (Permutation.arrange t.sizes p)).toNat? = some n ∧
      n < exactRange := by
    unfold Literal.transpose Shape.lengthOf at h
    split at h
    · rename_i n hn
      split at h
      · rename_i hlt
        exact ⟨n, hn, Nat.lt_trans hlt (by decide)⟩
      · cases h
    · cases h
  obtain ⟨n, hn, hsmall⟩ := hcount
  obtain ⟨hsize, hmeasured⟩ := Shape.measured_of_small hn hsmall
  obtain rfl := eq_permute_of_transpose h
  have hsame : Shape.size t.sizes = n := by
    rw [← hsize]
    exact (Shape.size_perm (Permutation.arrange_perm hp (hlength.trans t.length_sizes.symm))).symm
  have hdata : Shape.size t.sizes ≤ t.data.length := by
    by_cases hzero : Shape.size t.sizes = 0
    · exact hzero ▸ Nat.zero_le _
    · have hexact := Shape.measured_of_size hzero (hsame ▸ hsmall)
      rw [ht.measured] at hexact
      exact Nat.le_of_eq (Number.ofInt_eq_int hexact (hsame ▸ hsmall)).symm
  refine ⟨ht.dtype, Permutation.forall_mem_arrange (Number.size_ofNat 0) ht.dims p, fun x hx => ?_, ?_⟩
  · exact ht.data x (mem_data_permute hp hlength hdata hx)
  · rw [sizes_permute, length_data_permute, hmeasured, hsize, Number.ofInt_of_small (by simpa using hsmall)]

end Legible

end Literal

/-! ## Trees -/

mutual

/-- An attribute whose number, numbers, literal or body can be read again. -/
inductive Attribute.Legible : Attribute → Prop where
  | number {x : Number} (finite : x.isFinite = true) : Attribute.Legible (.number x)
  | text (s : String) : Attribute.Legible (.text s)
  | numbers {xs : List Number} (finite : ∀ x ∈ xs, x.isFinite = true) :
      Attribute.Legible (.numbers xs)
  | literal {value : Literal} (legible : value.Legible) : Attribute.Legible (.literal value)
  | body {g : Graph} (legible : Graph.Legible g) : Attribute.Legible (.body g)

/-- A node without bookmarks, with legible attributes under names that keep them. -/
inductive Node.Legible : Node → Prop where
  | intro {n : Node} (bookmarks : n.bookmarks = [])
      (keys : ∀ entry ∈ n.attributes, Inherited.keeps entry.1 = true)
      (attributes : ∀ entry ∈ n.attributes, Attribute.Legible entry.2) : Node.Legible n

/-- A graph with a legible table and legible nodes, in every graph of its tree. -/
inductive Graph.Legible : Graph → Prop where
  | intro {g : Graph} (infos : g.infos.Legible) (nodes : ∀ n ∈ g.nodes, Node.Legible n) :
      Graph.Legible g

end

/-- Attributes that can be read again. -/
def Attributes.Legible (attributes : List (String × Attribute)) : Prop :=
  ∀ entry ∈ attributes, Inherited.keeps entry.1 = true ∧ entry.2.Legible

theorem Node.legible_iff {n : Node} : n.Legible ↔ n.bookmarks = [] ∧ Attributes.Legible n.attributes :=
  ⟨fun ⟨hmarks, hkeys, hattributes⟩ => ⟨hmarks, fun entry h => ⟨hkeys entry h, hattributes entry h⟩⟩,
    fun ⟨hmarks, h⟩ => ⟨hmarks, fun entry hmem => (h entry hmem).1, fun entry hmem => (h entry hmem).2⟩⟩

/-- A graph is legible if its table and its nodes are. -/
theorem Graph.legible_iff {g : Graph} : g.Legible ↔ g.infos.Legible ∧ ∀ n ∈ g.nodes, n.Legible :=
  ⟨fun ⟨hinfos, hnodes⟩ => ⟨hinfos, hnodes⟩, fun ⟨hinfos, hnodes⟩ => ⟨hinfos, hnodes⟩⟩

@[simp] theorem Attributes.legible_nil : Attributes.Legible [] := fun _ h => nomatch h

namespace Attributes.Legible

variable {attributes : List (String × Attribute)}

theorem branches {g h : Graph} (hg : g.Legible) (hh : h.Legible) :
    Legible [("then_branch", .body g), ("else_branch", .body h)] := by
  have hkeys : Inherited.keeps "then_branch" = true ∧ Inherited.keeps "else_branch" = true := by decide
  exact List.forall_mem_cons.2 ⟨⟨hkeys.1, .body hg⟩, List.forall_mem_singleton.2 ⟨hkeys.2, .body hh⟩⟩

theorem set (h : Legible attributes) {key : String} {value : Attribute}
    (hkey : Inherited.keeps key = true) (hvalue : value.Legible) :
    Legible (Attributes.set attributes key value) := by
  intro entry hentry
  unfold Attributes.set at hentry
  split at hentry
  · obtain ⟨⟨k, v⟩, hmem, rfl⟩ := List.mem_map.1 hentry
    simp only
    split
    · exact ⟨(h _ hmem).1, hvalue⟩
    · exact h _ hmem
  · rcases List.mem_append.1 hentry with hentry | hentry
    · exact h entry hentry
    · exact List.mem_singleton.1 hentry ▸ ⟨hkey, hvalue⟩

theorem mapBody (h : Legible attributes) {f : Graph → Graph}
    (hf : ∀ key body, (key, Attribute.body body) ∈ attributes → body.Legible → (f body).Legible) :
    Legible (attributes.map fun entry => (entry.1, entry.2.mapBody f)) := by
  intro entry hentry
  obtain ⟨⟨key, value⟩, hmem, rfl⟩ := List.mem_map.1 hentry
  refine ⟨(h _ hmem).1, ?_⟩
  cases (h _ hmem).2 with
  | number finite => exact .number finite
  | text s => exact .text s
  | numbers finite => exact .numbers finite
  | literal legible => exact .literal legible
  | body legible => exact .body (hf key _ hmem legible)

theorem lookup (h : Legible attributes) {key : String} {value : Attribute}
    (hvalue : attributes.lookup key = some value) : value.Legible := by
  obtain ⟨before, after, rfl, -⟩ := List.lookup_eq_some_iff.1 hvalue
  exact (h (key, value) (by simp)).2

end Attributes.Legible

namespace Node.Legible

variable {n : Node}

theorem bookmarks (h : n.Legible) : n.bookmarks = [] := (legible_iff.1 h).1

theorem attributes (h : n.Legible) : Attributes.Legible n.attributes := (legible_iff.1 h).2

theorem body (h : n.Legible) {body : String × Graph} (hbody : body ∈ n.bodies) : body.2.Legible := by
  cases (h.attributes _ (mem_bodies.1 hbody)).2 with
  | body legible => exact legible

/-- The numbers under a key are finite. -/
theorem numbers? (h : n.Legible) {key : String} {xs : List Number} (hxs : n.numbers? key = some xs) :
    ∀ x ∈ xs, x.isFinite = true := by
  unfold Node.numbers? at hxs
  split at hxs
  · rename_i ys hys
    cases hxs
    cases h.attributes.lookup hys with
    | numbers finite => exact finite
  · cases hxs

theorem constant? (h : n.Legible) {value : Literal} (hvalue : n.constant? = some value) :
    value.Legible := by
  unfold Node.constant? at hvalue
  split at hvalue
  · unfold Node.literal? at hvalue
    split at hvalue
    · rename_i found hfound
      cases hvalue
      cases h.attributes.lookup hfound with
      | literal legible => exact legible
    · cases hvalue
  · cases hvalue

theorem constant {value : Literal} (hvalue : value.Legible) (name output : String) :
    (Node.constant name output value).Legible := by
  refine legible_iff.2 ⟨rfl, fun entry hentry => ?_⟩
  obtain rfl := List.mem_singleton.1 hentry
  exact ⟨show Inherited.keeps "value" = true by decide, .literal hvalue⟩

theorem replaceReads (h : n.Legible) {old : String} (new : String)
    (hbodies : ∀ body ∈ n.bodies, (body.2.substituteOuter old new).Legible) :
    (n.replaceReads old new).Legible := by
  by_cases hread : old ∈ n.reads
  · rw [replaceReads_of_mem hread]
    exact legible_iff.2 ⟨rfl, h.attributes.mapBody fun key body hbody _ =>
      hbodies (key, body) (mem_bodies.2 hbody)⟩
  · rwa [replaceReads_of_not_mem new hread]

end Node.Legible

namespace Graph.Legible

variable {g h : Graph}

theorem infos (hg : g.Legible) : g.infos.Legible := (legible_iff.1 hg).1

theorem node (hg : g.Legible) {n : Node} (hn : n ∈ g.nodes) : n.Legible := (legible_iff.1 hg).2 n hn

theorem getElem? (hg : g.Legible) {place : Nat} {n : Node} (hn : g.nodes[place]? = some n) :
    n.Legible :=
  hg.node (List.mem_of_getElem? hn)

/-- Nodes of a legible graph with a legible table are a legible graph. -/
theorem of_subset (hg : g.Legible) (hinfos : h.infos.Legible) (hnodes : h.nodes ⊆ g.nodes) :
    h.Legible :=
  legible_iff.2 ⟨hinfos, fun _ hn => hg.node (hnodes hn)⟩

/-- What is known around a graph of which the tables are legible, too, is legible. -/
theorem info? (hg : g.Legible) {enclosing : List Graph}
    (henclosing : ∀ scope ∈ enclosing, scope.infos.Legible) {name : String} {info : ValueInfo}
    (hinfo : g.info? enclosing name = some info) : info.Legible := by
  obtain ⟨scope, hscope, hentry⟩ := List.exists_of_findSome?_eq_some hinfo
  rcases List.mem_cons.1 hscope with rfl | hscope
  · exact hg.infos.get? hentry
  · exact (henclosing scope hscope).get? hentry

/-! ## Other names -/

theorem substituteOuter (hg : g.Legible) (old new : String) : (g.substituteOuter old new).Legible := by
  induction g using bodyInduction with
  | step g ih =>
      rw [substituteOuter_eq]
      split
      · exact hg
      · refine legible_iff.2 ⟨hg.infos, fun n hn => ?_⟩
        obtain ⟨m, hm, rfl⟩ := List.mem_map.1 hn
        exact (hg.node hm).replaceReads new fun body hbody =>
          ih m hm body hbody ((hg.node hm).body hbody)

theorem replaceInputs (hg : g.Legible) (old new : String) : (g.replaceInputs old new).Legible := by
  unfold Graph.replaceInputs
  split
  · exact hg
  · refine legible_iff.2 ⟨hg.infos, fun n hn => ?_⟩
    obtain ⟨m, hm, rfl⟩ := List.mem_map.1 hn
    exact (hg.node hm).replaceReads new fun body hbody =>
      ((hg.node hm).body hbody).substituteOuter old new

theorem putNode (hg : g.Legible) (place : Nat) {n : Node} (hn : n.Legible) :
    (g.putNode place n).Legible :=
  legible_iff.2 ⟨hg.infos, fun _ hm => (List.mem_or_eq_of_mem_set hm).elim hg.node fun e => e ▸ hn⟩

theorem addNode (hg : g.Legible) {n : Node} (hn : n.Legible) : (g.addNode n).Legible :=
  legible_iff.2 ⟨hg.infos, fun _ hm =>
    (List.mem_append.1 hm).elim hg.node fun e => List.mem_singleton.1 e ▸ hn⟩

theorem dropNode (hg : g.Legible) (place : Nat) : (g.dropNode place).Legible :=
  hg.of_subset hg.infos (List.eraseIdx_subset)

theorem renameProduced (hg : g.Legible) (old new : String) : (g.renameProduced old new).Legible := by
  unfold Graph.renameProduced
  split
  · rename_i n _ hn
    have hlegible := hg.node (List.mem_of_find?_eq_some hn)
    exact hg.putNode _ (Node.legible_iff.2 ⟨rfl, hlegible.attributes⟩)
  · exact hg

theorem renameValue (hg : g.Legible) {old new : String} (hok : g.renameValue old new = .ok h) :
    h.Legible := by
  unfold Graph.renameValue at hok
  split at hok
  · cases hok
    exact hg
  · split at hok
    · cases hok
    · cases hok
      have hrewired := (hg.renameProduced old new).replaceInputs old new
      exact hrewired.of_subset (hrewired.infos.movedInfos old new) (List.Subset.refl _)

theorem rebindOutput (hg : g.Legible) {enclosing : List Graph} {old new : String}
    (hok : g.rebindOutput enclosing old new = .ok h) : h.Legible := by
  unfold Graph.rebindOutput at hok
  split at hok
  · cases hok
  · cases hok
    refine hg.of_subset ?_ (List.Subset.refl _)
    refine InfoTable.Legible.unless_erase ?_ _ old
    split
    · rename_i info hinfo _
      have hlegible := hg.infos.get? hinfo
      exact hg.infos.set ⟨hlegible.dtype, hlegible.shape⟩
    · exact hg.infos

/-! ## Fewer nodes and less knowledge -/

theorem setInfo (hg : g.Legible) {info : ValueInfo} (hinfo : info.Legible) : (g.setInfo info).Legible :=
  hg.of_subset (hg.infos.set hinfo) (List.Subset.refl _)

theorem eraseInfo (hg : g.Legible) (name : String) : (g.eraseInfo name).Legible := by
  unfold Graph.eraseInfo
  split
  · exact hg
  · exact hg.of_subset (hg.infos.erase name) (List.Subset.refl _)

theorem removeUnreferenced? (hg : g.Legible) {place : Nat}
    (hsome : g.removeUnreferenced? place = some h) : h.Legible := by
  unfold Graph.removeUnreferenced? at hsome
  split at hsome
  · cases hsome
  · split at hsome
    · cases hsome
    · cases hsome
      exact hg.of_subset (hg.infos.foldl_erase _) List.eraseIdx_subset

theorem removeNamedIfUnreferenced (hg : g.Legible) (name : String) :
    (g.removeNamedIfUnreferenced name).Legible := by
  unfold Graph.removeNamedIfUnreferenced
  cases hplace : g.place? name with
  | none => exact hg
  | some place =>
      rw [Option.bind_some]
      cases hremoved : g.removeUnreferenced? place with
      | none => exact hg
      | some after => exact hg.removeUnreferenced? hremoved

theorem sortTopologically (hg : g.Legible) (hok : g.sortTopologically = .ok h) : h.Legible := by
  obtain ⟨nodes, hperm, rfl⟩ := sortTopologically_ok hok
  exact hg.of_subset hg.infos hperm.subset

theorem putBody (hg : g.Legible) (place : Nat) (key : String) {body : Graph} (hbody : body.Legible) :
    (g.putBody place key body).Legible := by
  unfold Graph.putBody
  split
  · exact hg
  · rename_i n hn
    have hlegible := hg.getElem? hn
    refine hg.putNode place (Node.legible_iff.2 ⟨hlegible.bookmarks, fun entry hentry => ?_⟩)
    obtain ⟨⟨k, v⟩, hmem, rfl⟩ := List.mem_map.1 hentry
    simp only
    split
    · exact ⟨(hlegible.attributes _ hmem).1, .body hbody⟩
    · exact hlegible.attributes _ hmem

end Graph.Legible

end TensorGraph
