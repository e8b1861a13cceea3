import DictScript.Proofs.Regions.Primitives
import DictScript.Proofs.Regions.Rules
import DictScript.Proofs.Steps.Depth

/-!
Runs of the machine in a region, down to work that is left to wait: until they come back to it they
touch neither that work nor anything outside of the region.
-/
namespace DictScript
open Heap
variable {rt : Runtime} {env : DictId} {depth d : Nat} {h k : Heap} {S T K : Set Ref} {e v : Value}
variable {f : Frame} {above base : List Frame} {m m' : Machine} {x : Move × Heap}

/-! Rules of the machine as a whole. -/

theorem stays_evalNative (hrt : rt.Tame K) (depth : Nat) {n : NativeId} (hS : h.Region S)
    (hK : K ⊆ S) (henv : .dict env ∈ S) (hn : .native n ∈ S) :
    Stays (h, S) (evalNative rt depth n env h) := by
  have hroot := hK hrt.root
  unfold evalNative
  split
  · exact stays_reply depth hS hroot (Primitive.tame_run hrt _ hS hK henv)
  · split
    · rename_i f hf
      exact stays_reply depth hS hroot (hrt.functions _ f hf h S env hS hK henv)
    · exact .ret (has_of_refs rfl)
  · exact .ret fun r hr => List.mem_singleton.mp hr ▸ hn

theorem stays_evalExpr (hrt : rt.Tame K) (depth : Nat) (hS : h.Region S) (hK : K ⊆ S)
    (henv : .dict env ∈ S) (he : Has S e) : Stays (h, S) (evalExpr rt depth e env h) := by
  unfold evalExpr
  split
  · exact stays_evalSymbol hS henv
  · rename_i v
    have hv : Has S v := he
    exact .ret hv
  · exact stays_evalLiteral hS henv (has_dict.mp he)
  · exact stays_evalList hS henv (has_list.mp he)
  · exact stays_evalNative hrt depth hS hK henv (he _ (List.mem_singleton_self _))
  · exact .ret he

namespace Machine

/-! Steps and runs. -/

structure Rests (base : List Frame) (m : Machine) : Prop where
  stack : m.stack = base
  answered : ∀ e env, m.control ≠ .eval e env

structure Inside (K : Set Ref) (base : List Frame) (d : Nat) (S : Set Ref) (m : Machine) :
    Prop where
  region : m.heap.Region S
  host : K ⊆ S
  control : m.control.In S
  above : ∃ above, m.stack = above ++ base ∧ (∀ f ∈ above, f.Tame (m.heap, S)) ∧
    m.depth = d + applications above

theorem depthBelow_eq (f : Frame) (fs : List Frame) (d : Nat) :
    depthBelow f (d + applications (f :: fs)) = d + applications fs := by
  cases f with
  | application frame kept =>
    rw [applications_application]
    rfl
  | _ => rfl

/-- A rule that stays in the region, put into effect. -/
theorem inside_proceed (base : List Frame) (log : List String) (hS : h.Region S) (hK : K ⊆ S)
    (habove : ∀ f ∈ above, f.Tame (h, S)) (hdepth : depth = d + applications above)
    (hx : Stays (h, S) x) (hk : k = x.2 ∨ k = x.2.leave) :
    ∃ T, Edits (h, S) ((proceed (above ++ base) depth log x.1 k).heap, T) ∧
      (proceed (above ++ base) depth log x.1 k).Inside K base d T := by
  obtain ⟨T, hedits, hmove⟩ := hx
  have hpinned : Edits (x.2, T) ((proceed (above ++ base) depth log x.1 k).heap, T) := by
    obtain rfl | rfl := hk
    · exact .single (.hold x.2.roots _)
    · exact .single (.hold x.2.roots _)
  have hall := hedits.trans hpinned
  refine ⟨T, hall, hall.region hS, hK.trans hedits.sub, hmove.control, x.1.frames ++ above, ?_, ?_,
    ?_⟩
  · exact (List.append_assoc _ _ _).symm
  · intro f hf
    cases List.mem_append.mp hf with
    | inl hf => exact (hmove.frames f hf).after hpinned
    | inr hf => exact (habove f hf).after hall
  · show depth + applications x.1.frames = _
    rw [applications_append, hdepth]
    omega

theorem Inside.step (hrt : rt.Tame K) (hm : m.Inside K base d S) (hworks : ¬ m.Rests base) :
    ∃ T, Edits (m.heap, S) ((m.step rt).heap, T) ∧ (m.step rt).Inside K base d T := by
  obtain ⟨control, stack, depth, h, log⟩ := m
  obtain ⟨hS, hK, hcontrol, above, hstack, habove, hdepth⟩ := hm
  simp only at hS hcontrol hstack habove hdepth
  subst hstack
  cases control with
  | eval e env =>
    have hstays := stays_evalExpr hrt depth hS hK hcontrol.2 hcontrol.1
    exact inside_proceed base log hS hK habove hdepth hstays (.inl rfl)
  | ret v =>
    cases above with
    | nil => exact (hworks ⟨rfl, by simp⟩).elim
    | cons f above =>
      obtain ⟨hf, habove⟩ := List.forall_mem_cons.mp habove
      have hhold : Edits (h, S) (h.hold v, S) := edits_hold v
      have hstays := stays_resume (depthBelow f depth) (hhold.region hS) (hK hrt.root)
        (hf.after hhold) hcontrol
      obtain ⟨T, hedits, hinside⟩ := inside_proceed (d := d) base log (hhold.region hS) hK
        (fun g hg => (habove g hg).after hhold) (hdepth ▸ depthBelow_eq f above d) hstays (.inr rfl)
      exact ⟨T, hhold.trans hedits, hinside⟩
  | raise e =>
    cases above with
    | nil => exact (hworks ⟨rfl, by simp⟩).elim
    | cons f above =>
      obtain ⟨hf, habove⟩ := List.forall_mem_cons.mp habove
      have hstays := stays_unwind (depthBelow f depth) e hS (hK hrt.root) hf
      exact inside_proceed base log hS hK habove (hdepth ▸ depthBelow_eq f above d) hstays
        (.inr rfl)

/-- The first state on the way from `m` in which a result is there for `base`. -/
inductive Returns (rt : Runtime) (base : List Frame) : Machine → Machine → Prop where
  | here {m : Machine} : m.Rests base → Returns rt base m m
  | step {m m' : Machine} : ¬ m.Rests base → Returns rt base (m.step rt) m' → Returns rt base m m'

theorem Returns.rests (hm : Returns rt base m m') : m'.Rests base := by
  induction hm with
  | here hrests => exact hrests
  | step _ _ ih => exact ih

theorem Inside.returns (hrt : rt.Tame K) (hreturns : Returns rt base m m')
    (hm : m.Inside K base d S) :
    ∃ T, Edits (m.heap, S) (m'.heap, T) ∧ m'.Inside K base d T := by
  induction hreturns generalizing S with
  | here => exact ⟨S, .refl, hm⟩
  | step hworks _ ih =>
    obtain ⟨T, hedits, hinside⟩ := hm.step hrt hworks
    obtain ⟨T', hedits', hinside'⟩ := ih hinside
    exact ⟨T', hedits.trans hedits', hinside'⟩

/-- What comes back finds the depth as it was. -/
theorem Inside.depth_of_rests (hm : m.Inside K base d S) (hrests : m.Rests base) :
    m.depth = d := by
  obtain ⟨above, hstack, -, hdepth⟩ := hm.above
  have hnil : above = [] := by
    have hlength := congrArg List.length (hstack.symm.trans hrests.stack)
    rw [List.length_append] at hlength
    exact List.length_eq_zero_iff.mp (by omega)
  rw [hdepth, hnil, applications_nil, Nat.add_zero]

theorem rests_nil_iff : m.Rests [] ↔ m.result?.isSome := by
  obtain ⟨control, stack, depth, h, log⟩ := m
  constructor
  · rintro ⟨hstack, hanswered⟩
    cases control with
    | eval e env => exact (hanswered e env rfl).elim
    | ret v | raise e =>
      obtain rfl : stack = [] := hstack
      rfl
  · intro hresult
    unfold result? at hresult
    split at hresult
    · rename_i hcontrol hstack
      exact ⟨hstack, fun e env heval => nomatch heval.symm.trans hcontrol⟩
    · rename_i hcontrol hstack
      exact ⟨hstack, fun e env heval => nomatch heval.symm.trans hcontrol⟩
    · cases hresult

/-- However many steps the machine takes, it stays in the region. -/
theorem Inside.run (hrt : rt.Tame K) (fuel : Nat) (hm : m.Inside K [] d S) :
    ∃ T, Edits (m.heap, S) ((m.run rt fuel).heap, T) ∧ (m.run rt fuel).Inside K [] d T := by
  induction fuel generalizing m S with
  | zero => exact ⟨S, .refl, hm⟩
  | succ fuel ih =>
    rw [Machine.run]
    split
    · exact ⟨S, .refl, hm⟩
    · rename_i hresult
      have hworks : ¬ m.Rests [] := by simp [rests_nil_iff, hresult]
      obtain ⟨T, hedits, hinside⟩ := hm.step hrt hworks
      obtain ⟨T', hedits', hinside'⟩ := ih hinside
      exact ⟨T', hedits.trans hedits', hinside'⟩

end Machine
end DictScript
