import DictScript.Proofs.Parents.Thawing

/-!
The primitives and the defrosters that are always there keep to the operations that hosts are held
to.
-/
namespace DictScript
open Heap
variable {root frame d : DictId} {below : List (List Value)} {h : Heap} {K : Set Ref} {v : Value}
variable {result : Except RuntimeError Value}

namespace Registry

theorem lawful_defrostRoot : Defroster.Lawful root defrostRoot := by
  intro h record scope hg hrecord hscope
  cases scope with
  | none => exact ⟨_, .refl _, fun _ _ => .refl _, by simp [defrostRoot]⟩
  | some d =>
    refine ⟨_, .refl _, fun _ _ => .refl _, ?_⟩
    rintro v ⟨⟩
    exact knows_dict (living_of_mem (hscope d rfl))

theorem living_of_soleNative {n : NativeId} (hv : h.Knows K v) (hn : soleNative? v = some n) :
    h.Living K (.native n) := by
  cases v with
  | block b =>
    obtain ⟨id, name, params, body, env, receiver⟩ := b
    refine hv _ ?_
    rw [soleNative?] at hn
    split at hn
    · rename_i m hbody
      cases hn
      simp only at hbody
      simp [Value.refs, blockRefs, hbody, allRefs]
    · cases hn
  | _ => cases hn

theorem lawful_defrostFunction : Defroster.Lawful root defrostFunction := by
  intro h record scope hg hrecord hscope
  unfold defrostFunction
  split
  · rename_i name hname
    cases hp : Primitive.ofName? name with
    | some p =>
      have hnew : ∀ root, Leads root (h, h.heldRefs)
          ((h.newNative (.function name (.primitive p))).1,
            insert (.native (h.newNative (.function name (.primitive p))).2) h.heldRefs) :=
        fun root => .of_op (.newNative _ (by simp [Native.refs])) rfl rfl
      refine ⟨_, hnew root, fun d _ => hnew d, ?_⟩
      rintro v ⟨⟩ r hr
      exact living_of_mem (.inl (List.mem_singleton.mp hr))
    | none =>
      cases hn : scope.bind fun d => soleNative? (h.resolve d name) with
      | none => exact ⟨_, .refl _, fun _ _ => .refl _, by simp⟩
      | some n =>
        obtain ⟨d, hd, hn'⟩ := Option.bind_eq_some_iff.mp hn
        have hlive := living_of_soleNative
          (hg.knows_resolve (living_of_mem (hscope d hd)) name) hn'
        refine ⟨_, .refl _, fun _ _ => .refl _, ?_⟩
        rintro v ⟨⟩ r hr
        exact List.mem_singleton.mp hr ▸ hlive
  · exact ⟨_, .refl _, fun _ _ => .refl _, by simp⟩

theorem lawful_standard : ∀ x ∈ standard, Defroster.Lawful root x.2 := by
  intro x hx
  simp only [standard, List.mem_cons, List.not_mem_nil, or_false] at hx
  obtain rfl | rfl := hx
  · exact lawful_defrostRoot
  · exact lawful_defrostFunction

end Registry

namespace Primitive

theorem lawful_done (hv : ∀ v, result = .ok v → h.Knows h.heldRefs v) :
    (Reply.done result h).Lawful root below h :=
  .done (.refl _) hv

def Plain (result : Except RuntimeError Value) : Prop := ∀ v, result = .ok v → v.refs = []

theorem lawful_plain (hplain : Plain result) : (Reply.done result h).Lawful root below h := by
  refine lawful_done fun v hv r hr => ?_
  rw [hplain v hv] at hr
  simp at hr

theorem plain_onNumbers {f : Float → Float → Value} (hf : ∀ x y, (f x y).refs = []) :
    Plain (onNumbers f h frame) := by
  intro v hv
  rw [onNumbers] at hv
  cases ha : number h frame "a" with
  | error e => simp [ha, bind, Except.bind] at hv
  | ok a =>
    cases hb : number h frame "b" with
    | error e => simp [ha, hb, bind, Except.bind] at hv
    | ok b =>
      simp only [ha, hb, bind, Except.bind, pure, Except.pure, Except.ok.injEq] at hv
      exact hv ▸ hf a b

theorem plain_plus : Plain (plus h frame) := by
  unfold plus
  split
  · rintro v ⟨⟩
    rfl
  · exact plain_onNumbers fun _ _ => rfl

theorem plain_shortCircuit (settled : Bool) : Plain (shortCircuit settled h frame) := by
  intro v hv
  rw [shortCircuit] at hv
  cases ha : boolean h frame "a" with
  | error e => simp [ha, bind, Except.bind] at hv
  | ok a =>
    simp only [ha, bind, Except.bind, pure, Except.pure] at hv
    split at hv
    · cases hv
      rfl
    · cases hb : boolean h frame "b" with
      | error e => simp [hb] at hv
      | ok b =>
        simp only [hb, Except.ok.injEq] at hv
        exact hv ▸ rfl

theorem plain_length : Plain (length h frame) := by
  intro v hv
  unfold length at hv
  simp only at hv
  split at hv
  · cases hv
    rfl
  · cases hv
    rfl
  · cases hv
    rfl
  · cases hv

theorem plain_map {α : Type} {x : Except RuntimeError α} {f : α → Value}
    (hf : ∀ a, (f a).refs = []) : Plain (x.map f) := by
  intro v hv
  cases x with
  | error e => cases hv
  | ok a =>
    cases hv
    exact hf a

theorem lawful_branch (hg : h.Good h.heldRefs) (hframe : .dict frame ∈ h.heldRefs) :
    (branch h frame).Lawful root below h := by
  unfold branch
  split
  · exact lawful_done (by simp)
  · rename_i cond _
    have hknows := hg.knows_get (living_of_mem hframe) (if cond then "then" else "else")
    split
    · rename_i b hb
      rw [hb] at hknows
      refine .ask (hg.takeValue root hknows) (fun v hv => ?_) fun k result _ _ hpins => ?_
      · simp only [Request.held, List.mem_cons, List.not_mem_nil, or_false] at hv
        obtain rfl | rfl := hv
        · exact has_dict.mpr (.inl hframe)
        · exact fun r hr => .inr hr
      · refine lawful_done fun v hv r hr => living_of_mem ?_
        rw [hv] at hpins
        exact held_of_innermost hpins List.mem_cons_self hr
    · refine lawful_done ?_
      rintro v ⟨⟩
      exact hknows

theorem lawful_run {rt : Runtime} (hrt : rt.Lawful) (p : Primitive) (hg : h.Good h.heldRefs)
    (hroot : .dict rt.root ∈ allRefs h.roots) (hframe : .dict frame ∈ h.heldRefs) :
    (p.run rt h frame).Lawful rt.root below h := by
  cases p with
  | add => exact lawful_plain plain_plus
  | sub | mul | div | lt | le | gt | ge => exact lawful_plain (plain_onNumbers fun _ _ => rfl)
  | equal =>
    refine lawful_plain ?_
    rintro v ⟨⟩
    rfl
  | not => exact lawful_plain (plain_map fun _ => rfl)
  | and | or => exact lawful_plain (plain_shortCircuit _)
  | choose => exact lawful_branch hg hframe
  | list =>
    have hknows := hg.knows_get (living_of_mem hframe) "items"
    simp only [run]
    split
    · refine .done (leads_newList rt.root [] (by simp)) ?_
      rintro v ⟨⟩
      exact knows_list (living_of_mem (.inl rfl))
    · refine lawful_done ?_
      rintro v ⟨⟩
      exact hknows
  | len => exact lawful_plain plain_length
  | names =>
    simp only [run]
    split
    · refine .done (leads_newList rt.root _ ?_) ?_
      · intro v hv r hr
        obtain ⟨n, -, rfl⟩ := List.mem_map.mp hv
        simp [Value.refs] at hr
      · rintro v ⟨⟩
        exact knows_list (living_of_mem (.inl rfl))
    · exact lawful_done (by simp)
  | log => exact .log (.refl _)
  | freeze => exact lawful_plain (plain_map fun _ => rfl)
  | thaw =>
    simp only [run]
    split
    · rename_i text _
      have hscope : ∀ d, some rt.root = some d → .dict d ∈ h.heldRefs := by
        rintro d ⟨⟩
        obtain ⟨v, hv, hr⟩ := mem_allRefs.mp hroot
        exact mem_heldRefs.mpr (.inl ⟨v, hv, hr⟩)
      obtain ⟨L, hlead, hv⟩ := lawful_thawText hrt.defrosters hg hroot hscope text
      exact .done hlead hv
    · exact lawful_done (by simp)

end Primitive
end DictScript
