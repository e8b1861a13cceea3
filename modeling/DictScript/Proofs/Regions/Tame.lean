import DictScript.Proofs.Parents.Lawful
import DictScript.Proofs.Regions.Contained

/-!
Host functions and defrosters that keep to a region: wherever the objects they are given are in a
region, with those the host has of its own, they edit that region and answer from it. The same is to
be shown of the rules of the machine.
-/
namespace DictScript
open Heap
variable {h k : Heap} {S T K : Set Ref} {s s' : Scene} {env : DictId} {e v : Value} {f : Frame}
variable {x : Move × Heap}

inductive Reply.Tame : Scene → Reply → Prop where
  | done {s : Scene} {k : Heap} {T : Set Ref} {result : Except RuntimeError Value} :
      Edits s (k, T) → (∀ v ∈ answerValues result, Has T v) → Reply.Tame s (.done result k)
  | log {s : Scene} {k : Heap} {T : Set Ref} {text : String} :
      Edits s (k, T) → Reply.Tame s (.log text k)
  | ask {s : Scene} {k : Heap} {T : Set Ref} {request : Request}
      {resume : Except RuntimeError Value → Heap → Reply} :
      Edits s (k, T) → (∀ v ∈ request.held, Has T v) →
      (∀ s' result, Edits (k, T) s' → (∀ v ∈ answerValues result, Has s'.2 v) →
        Reply.Tame s' (resume result s'.1)) →
      Reply.Tame s (.ask request k resume)

/-- The host has the objects of `K` of its own. -/
def HostFunction.Tame (K : Set Ref) (f : HostFunction) : Prop :=
  ∀ h S frame, h.Region S → K ⊆ S → .dict frame ∈ S → (f h frame).Tame (h, S)

def Defroster.Tame (K : Set Ref) (f : Defroster) : Prop :=
  ∀ h S record scope, h.Region S → K ⊆ S → .dict record ∈ S →
    (∀ d, scope = some d → .dict d ∈ S) →
    ∃ T, Edits (h, S) ((f h record scope).2, T) ∧
      ∀ v ∈ answerValues (f h record scope).1, Has T v

structure Runtime.Tame (K : Set Ref) (rt : Runtime) : Prop where
  root : .dict rt.root ∈ K
  functions : ∀ key f, rt.functions key = some f → f.Tame K
  defrosters : ∀ x ∈ rt.registry, x.2.Tame K

structure Frame.Tame (s : Scene) (f : Frame) : Prop where
  held : ∀ v ∈ f.held, Has s.2 v
  resumes : match f with
    | .entry _ _ _ _ name names => ∀ n ∈ name :: names, Key.of n = .slot n
    | .host resume _ => ∀ s' result, Edits s s' → (∀ v ∈ answerValues result, Has s'.2 v) →
        (resume result s'.1).Tame s'
    | _ => True

theorem Frame.Tame.after (he : Edits s s') (hf : f.Tame s) : f.Tame s' where
  held v hv := (hf.held v hv).mono he.sub
  resumes := by
    cases f with
    | host resume kept =>
      exact fun s'' result hlater hresult => hf.resumes s'' result (he.trans hlater) hresult
    | entry => exact hf.resumes
    | _ => trivial

def Control.In (S : Set Ref) : Control → Prop
  | .eval e env => Has S e ∧ .dict env ∈ S
  | .ret v => Has S v
  | .raise _ => True

structure Move.Tame (s : Scene) (m : Move) : Prop where
  control : m.control.In s.2
  frames : ∀ f ∈ m.frames, f.Tame s

def Stays (s : Scene) (x : Move × Heap) : Prop :=
  ∃ T, Edits s (x.2, T) ∧ x.1.Tame (x.2, T)

theorem has_of_refs (hv : v.refs = []) : Has S v := fun r hr => by simp [hv] at hr

namespace Stays

theorem after (he : Edits s s') (hx : Stays s' x) : Stays s x := by
  obtain ⟨T, he', hmove⟩ := hx
  exact ⟨T, he.trans he', hmove⟩

theorem ret (hv : Has S v) : Stays (h, S) (.ret v, h) :=
  ⟨S, .refl, hv, List.forall_mem_nil _⟩

theorem raise (error : RuntimeError) : Stays (h, S) (.raise error, h) :=
  ⟨S, .refl, trivial, List.forall_mem_nil _⟩

theorem failIn (env : DictId) (cause : Cause) : Stays (h, S) (.failIn h env cause, h) :=
  raise _

theorem eval (he : Has S e) (henv : .dict env ∈ S) (hf : f.Tame (h, S)) :
    Stays (h, S) (.eval e env [f], h) :=
  ⟨S, .refl, ⟨he, henv⟩, List.forall_mem_singleton.mpr hf⟩

theorem body {es : List Value} {fs : List Frame} (hes : ∀ e ∈ es, Has S e) (henv : .dict env ∈ S)
    (hfs : ∀ f ∈ fs, f.Tame (h, S)) : Stays (h, S) (.body es env fs, h) := by
  cases es with
  | nil => exact ⟨S, .refl, has_of_refs rfl, hfs⟩
  | cons e es =>
    refine ⟨S, .refl, ⟨hes e List.mem_cons_self, henv⟩, ?_⟩
    rintro f (_ | ⟨_, hf⟩)
    · refine ⟨fun v hv => ?_, trivial⟩
      simp only [Frame.held, List.mem_cons] at hv
      obtain rfl | rfl | hv := hv
      · exact has_of_refs rfl
      · exact has_dict.mpr henv
      · exact hes v (List.mem_cons_of_mem _ hv)
    · exact hfs f hf

end Stays
end DictScript
