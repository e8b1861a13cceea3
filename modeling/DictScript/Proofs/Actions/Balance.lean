import DictScript.Proofs.Actions.Plan
import DictScript.Proofs.Slots

/-!
Whatever comes of an evaluation, the frame stack is as it was before, and the registry has only
grown.
-/
namespace DictScript

@[simp] theorem FrameStack.pop_push (s : FrameStack) (d : DictId) : (s.push d).pop = s := by
  simp [push, pop]

namespace Action
variable {C : Type}

namespace Registry
variable (r : Registry C) (name : String) (d : Definition C)

theorem names_add : r.names <+: (r.add name d).names := by
  induction r with
  | nil => exact List.nil_prefix
  | cons x rest ih =>
    obtain ⟨m, ds⟩ := x
    rw [Registry.add]
    split
    · exact List.prefix_refl _
    · exact (List.prefix_cons_inj m).mpr ih

theorem definitions_add (n : String) :
    (r.add name d).definitions n = r.definitions n ++ if n = name then [d] else [] := by
  induction r with
  | nil =>
    rw [Registry.add, definitions, lookup_cons_eq]
    split <;> rfl
  | cons x rest ih =>
    obtain ⟨m, ds⟩ := x
    rw [Registry.add]
    by_cases hm : m = name
    · rw [if_pos hm, definitions, definitions, lookup_cons_eq, lookup_cons_eq, hm]
      split <;> simp
    · rw [if_neg hm, definitions, definitions, lookup_cons_eq, lookup_cons_eq]
      by_cases hn : n = m
      · simp [hn, hm]
      · rw [if_neg hn, if_neg hn]
        exact ih

end Registry

namespace World
variable {w w₁ w₂ : World C}

structure Balanced (w w' : World C) : Prop where
  stack : w'.stack = w.stack
  definitions (name : String) : w.registry.definitions name <+: w'.registry.definitions name
  names : w.registry.names <+: w'.registry.names

/-- Neither the stack nor the registry is touched. -/
theorem balanced_of_eq (hs : w₁.stack = w.stack) (hr : w₁.registry = w.registry) : w.Balanced w₁ :=
  ⟨hs, fun _ => hr ▸ List.prefix_refl _, hr ▸ List.prefix_refl _⟩

theorem Balanced.refl (w : World C) : w.Balanced w := balanced_of_eq rfl rfl

theorem Balanced.trans (h₁ : w.Balanced w₁) (h₂ : w₁.Balanced w₂) : w.Balanced w₂ :=
  ⟨h₂.stack.trans h₁.stack, fun name => (h₁.definitions name).trans (h₂.definitions name),
    h₁.names.trans h₂.names⟩

theorem balanced_opened (w : World C) : w.Balanced w.opened := balanced_of_eq rfl rfl

theorem balanced_bound (w : World C) (frame : DictId) (name : String) (v : Value) :
    w.Balanced (w.bound frame name v) := balanced_of_eq rfl rfl

theorem balanced_defined (w : World C) (name : String) (d : Definition C) :
    w.Balanced (w.defined name d) :=
  ⟨rfl, fun n => ⟨_, (w.registry.definitions_add name d n).symm⟩, w.registry.names_add name d⟩

/-- The frame that is popped is the one that was pushed, if the stack is the same by then. -/
theorem Balanced.popped {frame : DictId} (h : (w.pushed frame).Balanced w₁) :
    w.Balanced w₁.popped :=
  ⟨(congrArg FrameStack.pop h.stack).trans (w.stack.pop_push frame), h.definitions, h.names⟩

end World

open World

section
variable {α β : Type} {w w₀ : World C} {t : Task C β} {next : β → World C → Plan C α}

def KeepsBalance (w : World C) (p : Plan C α) : Prop :=
  p.Keeps (fun _ _ => True) (fun _ v v' => v.Balanced v') w.Balanced

theorem keepsBalance_start (h : w.Balanced w₀)
    (hnext : ∀ w₁, w.Balanced w₁ → ∀ b, KeepsBalance w (next b w₁)) :
    KeepsBalance w (.start t w₀ id next) :=
  ⟨trivial, fun w₁ h₁ => ⟨h.trans h₁, hnext w₁ (h.trans h₁)⟩⟩

theorem keepsBalance_within {frame : DictId} (h : w.Balanced w₀)
    (hnext : ∀ w₁, w.Balanced w₁ → ∀ b, KeepsBalance w (next b w₁)) :
    KeepsBalance w (.start t (w₀.pushed frame) .popped next) :=
  ⟨trivial, fun _ h₁ => ⟨h.trans h₁.popped, hnext _ (h.trans h₁.popped)⟩⟩

theorem keepsBalance_plan (t : Task C α) (w : World C) : KeepsBalance w (t.plan w) := by
  cases t with
  | eval e =>
    cases e with
    | list l => exact keepsBalance_start (.refl w) fun w₁ h _ => h
    | _ => exact .refl w
  | list l =>
    rw [Task.plan]
    split
    · exact .refl w
    · exact keepsBalance_start (balanced_opened w) fun w₁ h₁ _ =>
        keepsBalance_within h₁ fun w₂ h₂ _ => h₂
    · split
      · exact .refl w
      · exact .refl w
      · exact balanced_defined w _ _
    · exact keepsBalance_start (.refl w) fun w₁ h _ => h
    · exact keepsBalance_start (balanced_opened w) fun w₁ h _ => h
    · exact .refl w
  | slots frame source names =>
    cases names with
    | nil => exact .refl w
    | cons name names =>
      exact keepsBalance_start (.refl w) fun w₁ h₁ v =>
        keepsBalance_start (h₁.trans (balanced_bound w₁ frame name v)) fun w₂ h₂ _ => h₂
  | body last exprs =>
    cases exprs with
    | nil => exact .refl w
    | cons e es =>
      exact keepsBalance_start (.refl w) fun w₁ h₁ v => keepsBalance_start h₁ fun w₂ h₂ _ => h₂
  | call name args =>
    exact keepsBalance_start (balanced_opened w) fun w₁ h₁ _ =>
      keepsBalance_start h₁ fun w₂ h₂ _ => h₂
  | dispatch frame last definitions =>
    cases definitions with
    | nil => exact .refl w
    | cons d ds =>
      rw [Task.plan]
      split
      · exact keepsBalance_start (.refl w) fun w₁ h₁ v => keepsBalance_start h₁ fun w₂ h₂ _ => h₂
      · exact keepsBalance_start (.refl w) fun w₁ h _ => h
  | implement frame implementation =>
    cases implementation with
    | native run => exact balanced_of_eq rfl rfl
    | body exprs => exact keepsBalance_within (.refl w) fun w₁ h _ => h

end

def balance (C : Type) : Contract C where
  pre _ _ := True
  post _ w w' := w.Balanced w'
  out _ := .refl _
  plan _ := keepsBalance_plan _ _

/-- Whether an evaluation or a call answers or fails, at whatever point, the stack is as before and
the registry has only grown. -/
theorem balanced_evaluation (fuel : Nat) (w : World C) :
    (∀ e, w.Balanced ((Act.eval fuel e).run w).2) ∧
      ∀ name args, w.Balanced ((Act.call fuel name args).run w).2 :=
  ⟨fun e => (balance C).run fuel (t := .eval e) trivial,
    fun name args => (balance C).run fuel (t := .call name args) trivial⟩

end Action
end DictScript
