import DictScript.Proofs.Parents.Reading
import DictScript.Eval.Step

/-!
What host functions and defrosters keep to: they change the heap by its operations, with what is
held in hand, and know only what they have read. The same is to be shown of the rules of the
machine.
-/
namespace DictScript
open Heap

def answerValues : Except RuntimeError Value → List Value
  | .ok v => [v]
  | .error _ => []

inductive Reply.Lawful (root : DictId) (below : List (List Value)) : Heap → Reply → Prop where
  | done {h k : Heap} {L : Set Ref} {result : Except RuntimeError Value} :
      Leads root (h, h.heldRefs) (k, L) → (∀ v, result = .ok v → k.Knows L v) →
      Reply.Lawful root below h (.done result k)
  | log {h k : Heap} {L : Set Ref} {text : String} :
      Leads root (h, h.heldRefs) (k, L) → Reply.Lawful root below h (.log text k)
  | ask {h k : Heap} {L : Set Ref} {request : Request}
      {resume : Except RuntimeError Value → Heap → Reply} :
      Leads root (h, h.heldRefs) (k, L) → (∀ v ∈ request.held, Has L v) →
      (∀ k' result, k'.Good k'.heldRefs → .dict root ∈ allRefs k'.roots →
        k'.pins = (answerValues result ++ request.held) :: below →
        Reply.Lawful root below k' (resume result k')) →
      Reply.Lawful root below h (.ask request k resume)

def HostFunction.Lawful (root : DictId) (f : HostFunction) : Prop :=
  ∀ h frame, h.Good h.heldRefs → .dict root ∈ allRefs h.roots → .dict frame ∈ h.heldRefs →
    (f h frame).Lawful root h.pins h

def Defroster.Lawful (root : DictId) (f : Defroster) : Prop :=
  ∀ h record scope, h.Good h.heldRefs → .dict record ∈ h.heldRefs →
    (∀ d, scope = some d → .dict d ∈ h.heldRefs) →
    ∃ L, Leads root (h, h.heldRefs) ((f h record scope).2, L) ∧
      (∀ d, scope = some d → Leads d (h, h.heldRefs) ((f h record scope).2, L)) ∧
      ∀ v, (f h record scope).1 = .ok v → (f h record scope).2.Knows L v

structure Runtime.Lawful (rt : Runtime) : Prop where
  functions : ∀ key f, rt.functions key = some f → f.Lawful rt.root
  defrosters : ∀ x ∈ rt.registry, x.2.Lawful rt.root

def Frame.Resumable (root : DictId) (below : List (List Value)) : Frame → Prop
  | .entry _ _ _ _ name names => ∀ n ∈ name :: names, Key.of n = .slot n
  | .host resume kept => ∀ k result, k.Good k.heldRefs → .dict root ∈ allRefs k.roots →
      k.pins = (answerValues result ++ kept) :: below →
      (resume result k).Lawful root below k
  | _ => True

def Stacked (root : DictId) (base : List (List Value)) : List Frame → Prop
  | [] => True
  | f :: fs => f.Resumable root (fs.map Frame.held ++ base) ∧ Stacked root base fs

def Control.refs : Control → List Ref
  | .eval e _ => e.refs
  | .ret v => v.refs
  | .raise _ => []

def Control.InScope (h : Heap) : Control → Prop
  | .eval _ env => .dict env ∈ h.heldRefs
  | _ => True

structure Move.Known (root : DictId) (below : List (List Value)) (h : Heap) (L : Set Ref)
    (m : Move) : Prop where
  control : ∀ r ∈ m.control.refs, h.Living L r
  frames : ∀ f ∈ m.frames, ∀ v ∈ f.held, h.Knows L v
  stacked : Stacked root below m.frames
  inScope : m.control.InScope { h with pins := m.frames.map Frame.held ++ below }

/-- A rule that works by operations on the heap and decides about living objects. -/
def Safe (root : DictId) (below : List (List Value)) (s : Scene) (r : Move × Heap) : Prop :=
  ∃ L, Leads root s (r.2, L) ∧ r.1.Known root below r.2 L

def Sound (root : DictId) (below : List (List Value)) (s : Scene) (r : Move × Heap) : Prop :=
  ∃ L, s.2 ⊆ L ∧ Leads root s (r.2, L) ∧ r.1.Known root below r.2 L

theorem Safe.after {root : DictId} {below : List (List Value)} {s s' : Scene} {r : Move × Heap}
    (hlead : Leads root s s') (hr : Safe root below s' r) : Safe root below s r := by
  obtain ⟨L, hlead', hknown⟩ := hr
  exact ⟨L, hlead.trans hlead', hknown⟩

theorem Safe.pins {root : DictId} {below : List (List Value)} {s : Scene} {r : Move × Heap}
    (hr : Safe root below s r) : r.2.pins = s.1.pins := by
  obtain ⟨L, hlead, -⟩ := hr
  exact hlead.pins

namespace Sound
variable {root env d : DictId} {below : List (List Value)} {s s' : Scene} {h k : Heap}
variable {K L : Set Ref} {r : Move × Heap} {e v : Value} {f : Frame} {es : List Value}
variable {fs : List Frame}

theorem safe (hr : Sound root below s r) : Safe root below s r := by
  obtain ⟨L, -, hlead, hknown⟩ := hr
  exact ⟨L, hlead, hknown⟩

theorem after (hlead : Leads root s s') (hK : s.2 ⊆ s'.2) (hr : Sound root below s' r) :
    Sound root below s r := by
  obtain ⟨L, hL, hlead', hknown⟩ := hr
  exact ⟨L, hK.trans hL, hlead.trans hlead', hknown⟩

theorem ret (hv : h.Knows K v) : Sound root below (h, K) (.ret v, h) :=
  ⟨K, subset_rfl, .refl _, hv, by simp [Move.ret], trivial, trivial⟩

theorem raise (error : RuntimeError) : Sound root below (h, K) (.raise error, h) :=
  ⟨K, subset_rfl, .refl _, by simp [Move.raise, Control.refs], by simp [Move.raise], trivial,
    trivial⟩

theorem failIn (env : DictId) (cause : Cause) :
    Sound root below (h, K) (.failIn h env cause, h) :=
  raise _

/-- One piece of work comes after the evaluation, and holds its environment. -/
theorem eval (he : h.Knows K e) (hf : ∀ v ∈ f.held, Has K v) (henv : .dict env ∈ f.held)
    (hresume : f.Resumable root below) : Sound root below (h, K) (.eval e env [f], h) := by
  refine ⟨K, subset_rfl, .refl _, he, ?_, ⟨hresume, trivial⟩, ?_⟩
  · intro g hg v hv
    obtain rfl := List.mem_singleton.mp hg
    exact (hf v hv).knows
  · refine mem_heldRefs.mpr (.inr ⟨f.held, List.mem_cons_self, .dict env, henv, ?_⟩)
    exact List.mem_singleton_self _

end Sound
end DictScript
