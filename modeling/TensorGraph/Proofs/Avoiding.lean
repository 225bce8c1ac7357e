import TensorGraph.Graph.Order

/-!
# Failures that are avoided

A computation may fail for many reasons and still avoid those of some kind. What is put together from
computations that avoid a kind of failure avoids it too.

## Main results

* `Avoids.bind`, `Avoids.mapM`, `Avoids.foldlM` -- computations that are put together.
* `Avoids.of_imp` -- with a kind of failure every narrower kind is avoided.
-/

namespace TensorGraph

/-- Whether a computation never fails with a failure of some kind. -/
def Avoids {α : Type} (kind : Failure → Bool) (x : Except Failure α) : Prop :=
  ∀ e, x = .error e → kind e = false

namespace Avoids

variable {α β : Type} {kind narrow : Failure → Bool}

theorem ok (a : α) : Avoids kind (.ok a) := by
  rintro e ⟨⟩

theorem error {e : Failure} (h : kind e = false) : Avoids kind (.error e : Except Failure α) := by
  rintro _ ⟨⟩
  exact h

theorem ne {x : Except Failure α} (h : Avoids kind x) {e : Failure} (he : kind e = true) :
    x ≠ .error e := by
  rintro rfl
  rw [h e rfl] at he
  cases he

theorem of_imp {x : Except Failure α} (h : Avoids kind x)
    (hkind : ∀ e, narrow e = true → kind e = true) : Avoids narrow x := by
  intro e he
  refine Bool.eq_false_iff.2 fun hnarrow => ?_
  exact h.ne (hkind e hnarrow) he

theorem bind {x : Except Failure α} {f : α → Except Failure β} (hx : Avoids kind x)
    (hf : ∀ a, Avoids kind (f a)) : Avoids kind (x >>= f) := by
  cases x with
  | error e => exact error (hx e rfl)
  | ok a => exact hf a

theorem map {x : Except Failure α} (hx : Avoids kind x) (f : α → β) : Avoids kind (x.map f) := by
  cases x with
  | error e => exact error (hx e rfl)
  | ok a => exact ok _

theorem mapM {f : α → Except Failure β} {l : List α} (h : ∀ a ∈ l, Avoids kind (f a)) :
    Avoids kind (l.mapM f) := by
  induction l with
  | nil => exact ok _
  | cons a l ih =>
      obtain ⟨ha, hl⟩ := List.forall_mem_cons.1 h
      rw [List.mapM_cons]
      exact ha.bind fun b => (ih hl).bind fun bs => ok _

theorem foldlM {f : β → α → Except Failure β} {l : List α}
    (h : ∀ b, ∀ a ∈ l, Avoids kind (f b a)) (b : β) : Avoids kind (l.foldlM f b) := by
  induction l generalizing b with
  | nil => exact ok _
  | cons a l ih =>
      rw [List.foldlM_cons]
      exact (h b a List.mem_cons_self).bind fun c =>
        ih (fun c a ha => h c a (List.mem_cons_of_mem _ ha)) c

end Avoids

/-- An order is refused for cycles only. -/
theorem Graph.avoids_topologicalOrder {kind : Failure → Bool}
    (hkind : ∀ issues, kind (.malformed issues) = false) (g : Graph) :
    Avoids kind g.topologicalOrder := by
  unfold topologicalOrder
  dsimp only
  split
  · exact .ok _
  · exact .error (hkind _)

end TensorGraph
