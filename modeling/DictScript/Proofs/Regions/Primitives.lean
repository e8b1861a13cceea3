import DictScript.Proofs.Parents.Primitives
import DictScript.Proofs.Regions.Thawing

/-!
The primitives and the defrosters that are always there are tame, without objects of their own but
for the root environment.
-/
namespace DictScript
open Heap
variable {frame d : DictId} {h : Heap} {S K : Set Ref} {v : Value}
variable {result : Except RuntimeError Value}

namespace Registry

theorem tame_defrostRoot : Defroster.Tame K defrostRoot := by
  intro h S record scope hS hK hrecord hscope
  cases scope with
  | none => exact ⟨S, .refl, List.forall_mem_nil _⟩
  | some d => exact ⟨S, .refl, List.forall_mem_singleton.mpr (has_dict.mpr (hscope d rfl))⟩

theorem mem_of_soleNative {n : NativeId} (hv : Has S v) (hn : soleNative? v = some n) :
    .native n ∈ S := by
  cases v with
  | block b =>
    rw [soleNative?] at hn
    split at hn
    · rename_i m hbody
      cases hn
      refine has_body hv (v := .native n) ?_ _ (List.mem_singleton_self _)
      rw [hbody]
      exact List.mem_cons_self
    · cases hn
  | _ => cases hn

theorem tame_defrostFunction : Defroster.Tame K defrostFunction := by
  intro h S record scope hS hK hrecord hscope
  unfold defrostFunction
  split
  · rename_i name hname
    cases hp : Primitive.ofName? name with
    | some p =>
      refine ⟨_, .single (.newNative (.function name (.primitive p)) (by simp [Native.refs])), ?_⟩
      refine List.forall_mem_singleton.mpr fun r hr => .inl ?_
      exact List.mem_singleton.mp hr
    | none =>
      cases hn : scope.bind fun d => soleNative? (h.resolve d name) with
      | none => exact ⟨S, .refl, List.forall_mem_nil _⟩
      | some n =>
        obtain ⟨d, hd, hn'⟩ := Option.bind_eq_some_iff.mp hn
        have hmem := mem_of_soleNative (hS.has_resolve (hscope d hd) name) hn'
        refine ⟨S, .refl, List.forall_mem_singleton.mpr fun r hr => ?_⟩
        exact List.mem_singleton.mp hr ▸ hmem
  · exact ⟨S, .refl, List.forall_mem_nil _⟩

theorem tame_standard : ∀ x ∈ standard, Defroster.Tame K x.2 := by
  intro x hx
  simp only [standard, List.mem_cons, List.not_mem_nil, or_false] at hx
  obtain rfl | rfl := hx
  · exact tame_defrostRoot
  · exact tame_defrostFunction

end Registry

namespace Primitive

theorem tame_done (hv : ∀ v ∈ answerValues result, Has S v) :
    (Reply.done result h).Tame (h, S) :=
  .done .refl hv

theorem tame_plain (hplain : Plain result) : (Reply.done result h).Tame (h, S) := by
  refine tame_done fun v hv => has_of_refs ?_
  cases result with
  | error e => exact (List.not_mem_nil hv).elim
  | ok w => exact List.mem_singleton.mp hv ▸ hplain w rfl

theorem tame_branch (hS : h.Region S) (hframe : .dict frame ∈ S) :
    (branch h frame).Tame (h, S) := by
  unfold branch
  split
  · exact tame_done (List.forall_mem_nil _)
  · rename_i cond _
    have hget := hS.has_get hframe (if cond then "then" else "else")
    split
    · rename_i b hb
      rw [hb] at hget
      refine .ask .refl (fun v hv => ?_) fun s' result _ hresult => .done .refl hresult
      simp only [Request.held, List.mem_cons, List.not_mem_nil, or_false] at hv
      obtain rfl | rfl := hv
      · exact has_dict.mpr hframe
      · exact hget
    · exact tame_done (List.forall_mem_singleton.mpr hget)

theorem tame_run {rt : Runtime} (hrt : rt.Tame K) (p : Primitive) (hS : h.Region S) (hK : K ⊆ S)
    (hframe : .dict frame ∈ S) : (p.run rt h frame).Tame (h, S) := by
  cases p with
  | add => exact tame_plain plain_plus
  | sub | mul | div | lt | le | gt | ge => exact tame_plain (plain_onNumbers fun _ _ => rfl)
  | equal =>
    refine tame_plain ?_
    rintro v ⟨⟩
    rfl
  | not => exact tame_plain (plain_map fun _ => rfl)
  | and | or => exact tame_plain (plain_shortCircuit _)
  | choose => exact tame_branch hS hframe
  | list =>
    have hget := hS.has_get hframe "items"
    simp only [run]
    split
    · refine .done (.single (.newList [] (List.forall_mem_nil _))) ?_
      exact List.forall_mem_singleton.mpr (has_list.mpr (.inl rfl))
    · exact tame_done (List.forall_mem_singleton.mpr hget)
  | len => exact tame_plain plain_length
  | names =>
    simp only [run]
    split
    · rename_i d _
      have hnames : ∀ v ∈ (h.names d).map Value.str, Has S v := by
        intro v hv
        obtain ⟨n, -, rfl⟩ := List.mem_map.mp hv
        exact has_of_refs rfl
      refine .done (.single (.newList _ hnames)) ?_
      exact List.forall_mem_singleton.mpr (has_list.mpr (.inl rfl))
    · exact tame_done (List.forall_mem_nil _)
  | log => exact .log .refl
  | freeze => exact tame_plain (plain_map fun _ => rfl)
  | thaw =>
    simp only [run]
    split
    · rename_i text _
      have hscope : ∀ d, some rt.root = some d → .dict d ∈ S := by
        rintro d ⟨⟩
        exact hK hrt.root
      obtain ⟨T, hedits, hv⟩ := edits_thawText hS hK hscope hrt.defrosters text
      exact .done hedits hv
    · exact tame_done (List.forall_mem_nil _)

end Primitive
end DictScript
