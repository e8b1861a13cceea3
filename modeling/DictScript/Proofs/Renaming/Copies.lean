import DictScript.Proofs.Renaming.Operations

/-!
The same work under other numbers. A host function is uniform if it does not go by the numbers of
dictionaries: given the same objects under other numbers, it does and answers the same, under these.
-/
namespace DictScript
open Heap
variable {ws us : List (List Value)} {h h' k k' m : Heap} {env : DictId} {v : Value} {ρ : Renaming}
variable {f f' : Frame} {fs fs' : List Frame} {K : Set Ref} {x x' : Move × Heap}

def renameAnswer (ρ : Renaming) (result : Except RuntimeError Value) : Except RuntimeError Value :=
  result.map (Value.rename ρ.map)

inductive Reply.Copies (ρ : Renaming) : List (List Value) → Reply → Reply → Prop where
  | done {ws : List (List Value)} {k k' : Heap} {result : Except RuntimeError Value} :
      ρ.Heaps ws k k' → Reply.Copies ρ ws (.done result k) (.done (renameAnswer ρ result) k')
  | log {ws : List (List Value)} {k k' : Heap} {text : String} :
      ρ.Heaps ws k k' → Reply.Copies ρ ws (.log text k) (.log text k')
  | ask {ws : List (List Value)} {k k' : Heap} {request : Request}
      {resume resume' : Except RuntimeError Value → Heap → Reply} :
      ρ.Heaps ws k k' →
      (∀ us m m' result, k.Becomes m → ρ.Heaps us m m' →
        (∀ v ∈ answerValues result, Has m.everything v) →
        Reply.Copies ρ us (resume result m) (resume' (renameAnswer ρ result) m')) →
      Reply.Copies ρ ws (.ask request k resume) (.ask (request.rename ρ.map) k' resume')

def Renaming.Fixes (ρ : Renaming) (K : Set Ref) : Prop := ∀ d, .dict d ∈ K → ρ.map d = d

def HostFunction.Uniform (K : Set Ref) (f : HostFunction) : Prop :=
  ∀ (ρ : Renaming) ws h h' frame, ρ.Heaps ws h h' → ρ.Fixes K → K ⊆ h.everything →
    h.Allocated (.dict frame) → Reply.Copies ρ ws (f h frame) (f h' (ρ.map frame))

def Defroster.Uniform (K : Set Ref) (f : Defroster) : Prop :=
  ∀ (ρ : Renaming) ws h h' record scope, ρ.Heaps ws h h' → ρ.Fixes K → K ⊆ h.everything →
    h.Allocated (.dict record) → (∀ d, scope = some d → h.Allocated (.dict d)) →
    (f h' (ρ.map record) (scope.map ρ.map)).1 = renameAnswer ρ (f h record scope).1 ∧
      ρ.Heaps ws (f h record scope).2 (f h' (ρ.map record) (scope.map ρ.map)).2

structure Runtime.Uniform (K : Set Ref) (rt : Runtime) : Prop where
  functions : ∀ key f, rt.functions key = some f → f.Uniform K
  defrosters : ∀ x ∈ rt.registry, x.2.Uniform K

def Resumes (ρ : Renaming) (h : Heap) (resume resume' : Except RuntimeError Value → Heap → Reply) :
    Prop :=
  ∀ us m m' result, h.Becomes m → ρ.Heaps us m m' →
    (∀ v ∈ answerValues result, Has m.everything v) →
    Reply.Copies ρ us (resume result m) (resume' (renameAnswer ρ result) m')

def Frame.Copies (ρ : Renaming) (h : Heap) : Frame → Frame → Prop
  | .host resume kept, f' => ∃ resume', f' = .host resume' (renameAll ρ.map kept) ∧
      Resumes ρ h resume resume'
  | f, f' => f' = f.rename ρ.map

theorem Frame.Copies.after (hk : h.Becomes k) (hf : f.Copies ρ h f') : f.Copies ρ k f' := by
  cases f with
  | host resume kept =>
    obtain ⟨resume', rfl, hresumes⟩ := hf
    exact ⟨resume', rfl, fun us m m' result hm => hresumes us m m' result (hk.trans hm)⟩
  | _ => exact hf

theorem Frame.Copies.held (hf : f.Copies ρ h f') : f'.held = renameAll ρ.map f.held := by
  cases f with
  | host resume kept =>
    obtain ⟨resume', rfl, -⟩ := hf
    rfl
  | _ =>
    obtain rfl := hf
    exact held_rename ρ.map _

theorem Frame.Copies.isApplication (hf : f.Copies ρ h f') : f'.isApplication = f.isApplication := by
  cases f with
  | host resume kept =>
    obtain ⟨resume', rfl, -⟩ := hf
    rfl
  | _ =>
    obtain rfl := hf
    exact isApplication_rename ρ.map _

structure Move.Copies (ρ : Renaming) (ws : List (List Value)) (x x' : Move × Heap) : Prop where
  heaps : ρ.Heaps ws x.2 x'.2
  control : x'.1.control = x.1.control.rename ρ.map
  frames : List.Forall₂ (Frame.Copies ρ x.2) x.1.frames x'.1.frames
  logged : x'.1.logged = x.1.logged

namespace Renaming.Heaps
variable (hh : ρ.Heaps ws h h')
include hh

theorem ret (v : Value) : Move.Copies ρ ws (.ret v, h) (.ret (v.rename ρ.map), h') :=
  ⟨hh, rfl, .nil, rfl⟩

theorem raise (error : RuntimeError) : Move.Copies ρ ws (.raise error, h) (.raise error, h') :=
  ⟨hh, rfl, .nil, rfl⟩

theorem failIn (env : DictId) (cause : Cause) :
    Move.Copies ρ ws (.failIn h env cause, h) (.failIn h' (ρ.map env) cause, h') := by
  rw [Move.failIn, Move.failIn, hh.raisedIn]
  exact hh.raise _

theorem eval (e : Value) (env : DictId) (hfs : List.Forall₂ (Frame.Copies ρ h) fs fs') :
    Move.Copies ρ ws (.eval e env fs, h) (.eval (e.rename ρ.map) (ρ.map env) fs', h') :=
  ⟨hh, rfl, hfs, rfl⟩

theorem body (es : List Value) (env : DictId) (hfs : List.Forall₂ (Frame.Copies ρ h) fs fs') :
    Move.Copies ρ ws (.body es env fs, h) (.body (renameAll ρ.map es) (ρ.map env) fs', h') := by
  cases es with
  | nil => exact ⟨hh, rfl, hfs, rfl⟩
  | cons e es => exact hh.eval e env (.cons rfl hfs)

end Renaming.Heaps
end DictScript
