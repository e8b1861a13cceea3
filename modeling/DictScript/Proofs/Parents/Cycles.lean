import DictScript.Proofs.Parents.Reachable

/-!
Parent chains end in every heap that is reached, and only a declared parent can be refused.
-/
namespace DictScript
open Heap
variable {rt : Runtime} {h : Heap} {d p : DictId} {name : String} {v : Value}

namespace Heap

/-- A walk along the parents comes to an end. -/
theorem Orderly.wellFounded (ho : h.Orderly) : WellFounded fun p d => h.Inherits d p :=
  Subrelation.wf (fun hp => ho.height_lt hp) (measure h.height).wf

/-- A link that is refused is refused for what it is given, and nothing has changed. -/
theorem define_refused {e : RuntimeError} (he : (h.define d name v).1 = .error e) :
    (h.define d name v).2 = h ∧
      (e = .of (.cycle (h.displayName d)) ∨ e = .of (.wrongType "dictionary" v.typeName)) := by
  unfold define at he ⊢
  split at he
  · cases he
  · rename_i p _
    rw [Heap.setParent] at he ⊢
    split at he
    · rename_i hchain
      cases he
      rw [if_pos hchain]
      exact ⟨rfl, .inl rfl⟩
    · cases he
  · cases he
  · cases he
  · cases he
  · cases he
    exact ⟨rfl, .inr rfl⟩

end Heap

/-- No dictionary is an ancestor of its own, so that every walk along parents ends and more fuel
finds nothing more. A parent is refused just if the dictionary is that parent or one of its
ancestors, and what is refused changes nothing. -/
theorem Reachable.parents_acyclic (hrt : rt.Lawful) (hh : Reachable rt h) :
    (∀ d, ¬ Relation.TransGen h.Inherits d d) ∧
    (WellFounded fun p d => h.Inherits d p) ∧
    (∀ d n, h.dicts.size < n →
      h.chainOf n d = h.chain d ∧ (∀ name, h.findFrom name n d = h.find d name) ∧
        h.anchorFrom n d = h.anchor d) ∧
    (∀ d p, Relation.ReflTransGen h.Inherits p d ∧
        h.setParent d (some p) = (.error (.of (.cycle (h.displayName d))), h) ∨
      ¬ Relation.ReflTransGen h.Inherits p d ∧
        h.setParent d (some p) = (.ok (), h.link d (some p) true)) ∧
    (∀ d p name, Key.of name = .parent → h.define d name (.dict p) = h.setParent d (some p)) ∧
    (∀ d name v e, (h.define d name v).1 = .error e → (h.define d name v).2 = h ∧
      (e = .of (.cycle (h.displayName d)) ∨ e = .of (.wrongType "dictionary" v.typeName))) := by
  have ho := (hh.kept hrt).good.orderly
  refine ⟨ho.acyclic, ho.wellFounded, fun d n hn => ?_, ho.setParent_eq, fun d p name hname => ?_,
    fun d name v e => define_refused⟩
  · have hfew := h.height_le d
    have hmany : h.height d < n := by omega
    have hstd : h.height d < h.dicts.size + 1 := by omega
    exact ⟨ho.chainOf_eq hmany hstd, fun name => ho.findFrom_eq hmany hstd,
      ho.anchorFrom_eq hmany hstd⟩
  · unfold define
    simp only [hname]

def Interpreter.withChild : Heap :=
  let (h, made) := (HostOp.child ⟨0⟩).run (standard 100).heap
  h.keep made

theorem Reachable.withChild :
    Reachable (Interpreter.standard 100).runtime Interpreter.withChild := by
  have hroot := (Reachable.standard 100).root_held (Interpreter.lawful_standard 100)
  exact .change (.child ⟨0⟩) (.standard 100)
    (fun v hv => List.mem_singleton.mp hv ▸ has_dict.mpr hroot) trivial

/-- The root environment cannot inherit from its child. -/
theorem Reachable.parents_acyclic_child : ∃ rt h, rt.Lawful ∧ Reachable rt h ∧
    (∀ d, ¬ Relation.TransGen h.Inherits d d) ∧
    h.setParent ⟨0⟩ (some ⟨20⟩) = (.error (.of (.cycle "root")), h) := by
  have hrt := Interpreter.lawful_standard 100
  obtain ⟨hacyclic, -, -, hrefused, -⟩ := parents_acyclic hrt .withChild
  refine ⟨_, _, hrt, .withChild, hacyclic, ?_⟩
  cases hrefused ⟨0⟩ ⟨20⟩ with
  | inl hcycle =>
    have hname : Interpreter.withChild.displayName ⟨0⟩ = "root" := by decide +kernel
    rw [hcycle.2, hname]
  | inr hfree =>
    have hparent : Interpreter.withChild.parent ⟨20⟩ = some ⟨0⟩ := by decide +kernel
    exact (hfree.1 (.single hparent)).elim

end DictScript
