import DictScript.Proofs.Regions.Primitives
import DictScript.Proofs.Renaming.Rules
import DictScript.Proofs.Renaming.Thawing

/-!
The primitives, and the defrosters that are always there, do not go by the numbers of dictionaries.
-/
namespace DictScript
open Heap
variable {ws : List (List Value)} {h h' : Heap} {frame : DictId} {ρ : Renaming} {K : Set Ref}
variable {name : String} {rt : Runtime} {result result' : Except RuntimeError Value}

namespace Registry

theorem uniform_defrostRoot : Defroster.Uniform K defrostRoot := by
  intro ρ ws h h' record scope hh _ _ _ _
  cases scope with
  | none => exact ⟨rfl, hh⟩
  | some d => exact ⟨rfl, hh⟩

theorem soleNative?_rename (f : DictId → DictId) (v : Value) :
    soleNative? (v.rename f) = soleNative? v := by
  cases v with
  | block b =>
    obtain ⟨id, name, params, body, env, receiver⟩ := b
    match body with
    | [] => rfl
    | [e] => cases e <;> rfl
    | e :: _ :: _ => cases e <;> rfl
  | _ => rfl

theorem uniform_defrostFunction : Defroster.Uniform K defrostFunction := by
  intro ρ ws h h' record scope hh _ _ _ _
  rw [defrostFunction, defrostFunction, hh.get]
  cases h.get record "name" with
  | str name =>
    simp only [Value.rename]
    cases Primitive.ofName? name with
    | some p =>
      have hnew := (hh.newNative (x := .function name (.primitive p))
        (List.forall_mem_nil _)).heaps
      have hid := hh.newNative_id (.function name (.primitive p)) (.function name (.primitive p))
      simp only [hid]
      exact ⟨rfl, hnew⟩
    | none =>
      have hsole : ((scope.map ρ.map).bind fun d => soleNative? (h'.resolve d name)) =
          scope.bind fun d => soleNative? (h.resolve d name) := by
        cases scope with
        | none => simp only [Option.map_none, Option.bind_none]
        | some d => simp only [Option.map_some, Option.bind_some, hh.resolve, soleNative?_rename]
      simp only [hsole]
      cases scope.bind fun d => soleNative? (h.resolve d name) with
      | some n => exact ⟨rfl, hh⟩
      | none => exact ⟨rfl, hh⟩
  | _ => exact ⟨rfl, hh⟩

theorem uniform_standard : ∀ x ∈ standard, Defroster.Uniform K x.2 := by
  intro x hx
  simp only [standard, List.mem_cons, List.not_mem_nil, or_false] at hx
  obtain rfl | rfl := hx
  · exact uniform_defrostRoot
  · exact uniform_defrostFunction

end Registry

namespace Renaming.Heaps
variable (hh : ρ.Heaps ws h h')
include hh

theorem done (hresult : result' = renameAnswer ρ result) :
    Reply.Copies ρ ws (.done result h) (.done result' h') :=
  hresult ▸ .done hh

theorem number (frame : DictId) (name : String) :
    Primitive.number h' (ρ.map frame) name = Primitive.number h frame name := by
  rw [Primitive.number, Primitive.number, hh.get]
  cases h.get frame name <;> rfl

theorem boolean (frame : DictId) (name : String) :
    Primitive.boolean h' (ρ.map frame) name = Primitive.boolean h frame name := by
  rw [Primitive.boolean, Primitive.boolean, hh.get]
  cases h.get frame name <;> rfl

theorem onNumbers {f : Float → Float → Value} (frame : DictId)
    (hf : ∀ x y, (f x y).rename ρ.map = f x y) :
    Primitive.onNumbers f h' (ρ.map frame) = renameAnswer ρ (Primitive.onNumbers f h frame) := by
  rw [Primitive.onNumbers, Primitive.onNumbers, hh.number, hh.number]
  cases Primitive.number h frame "a" with
  | error e => rfl
  | ok a =>
    cases Primitive.number h frame "b" with
    | error e => rfl
    | ok b => exact congrArg Except.ok (hf a b).symm

theorem plus (frame : DictId) :
    Primitive.plus h' (ρ.map frame) = renameAnswer ρ (Primitive.plus h frame) := by
  have hnumbers := hh.onNumbers (f := fun x y => .num (x + y)) frame fun _ _ => rfl
  rw [Primitive.plus, Primitive.plus, hh.get, hh.get]
  cases h.get frame "a" with
  | str a =>
    cases h.get frame "b" with
    | str b => rfl
    | _ => exact hnumbers
  | _ => exact hnumbers

theorem shortCircuit (settled : Bool) (frame : DictId) :
    Primitive.shortCircuit settled h' (ρ.map frame) =
      renameAnswer ρ (Primitive.shortCircuit settled h frame) := by
  rw [Primitive.shortCircuit, Primitive.shortCircuit, hh.boolean, hh.boolean]
  cases Primitive.boolean h frame "a" with
  | error e => rfl
  | ok a =>
    simp only [bind, Except.bind, pure, Except.pure]
    split
    · rfl
    · cases Primitive.boolean h frame "b" <;> rfl

theorem length (frame : DictId) :
    Primitive.length h' (ρ.map frame) = renameAnswer ρ (Primitive.length h frame) := by
  rw [Primitive.length, Primitive.length, hh.get]
  cases h.get frame "value" with
  | list l =>
    simp only [Value.rename, hh.items, length_renameAll]
    rfl
  | dict d =>
    simp only [Value.rename, hh.names]
    rfl
  | _ => rfl

theorem logText (hframe : h.Allocated (.dict frame)) :
    Primitive.logText h' (ρ.map frame) = Primitive.logText h frame := by
  have hget := hh.region.has_get hframe "values"
  rw [Primitive.logText, Primitive.logText, hh.get]
  cases hv : h.get frame "values" with
  | list l =>
    rw [hv] at hget
    simp only [Value.rename, hh.items, renameAll_eq, List.map_map]
    refine congrArg _ (List.map_congr_left fun w hw => ?_)
    have hprint := hh.print (hh.region.has_item (has_list.mp hget) hw)
    cases w with
    | str s => rfl
    | _ => exact hprint
  | _ => rfl

theorem branch (frame : DictId) :
    Reply.Copies ρ ws (Primitive.branch h frame) (Primitive.branch h' (ρ.map frame)) := by
  rw [Primitive.branch, Primitive.branch, hh.boolean]
  cases Primitive.boolean h frame "cond" with
  | error e => exact hh.done rfl
  | ok cond =>
    simp only [hh.get]
    cases h.get frame (if cond then "then" else "else") with
    | block b => exact .ask hh fun us m m' result _ hm _ => hm.done rfl
    | _ => exact hh.done rfl

/-- A primitive does the same under other numbers. -/
theorem run (htame : rt.Tame K) (huniform : rt.Uniform K) (hfixes : ρ.Fixes K)
    (hK : K ⊆ h.everything) (p : Primitive) (hframe : h.Allocated (.dict frame)) :
    Reply.Copies ρ ws (p.run rt h frame) (p.run rt h' (ρ.map frame)) := by
  cases p with
  | add => exact hh.done (hh.plus frame)
  | sub | mul | div | lt | le | gt | ge => exact hh.done (hh.onNumbers frame fun _ _ => rfl)
  | equal =>
    refine hh.done ?_
    rw [hh.get, hh.get, hh.equal]
    rfl
  | not =>
    refine hh.done ?_
    rw [hh.boolean]
    cases Primitive.boolean h frame "a" <;> rfl
  | and | or => exact hh.done (hh.shortCircuit _ frame)
  | choose => exact hh.branch frame
  | list =>
    simp only [Primitive.run, hh.get]
    cases h.get frame "items" with
    | nil =>
      have hnew := (hh.newList (List.forall_mem_nil (Has h.everything))).heaps
      have hid := hh.newList_id [] []
      simp only [Value.rename, hid]
      exact hnew.done rfl
    | _ => exact hh.done rfl
  | len => exact hh.done (hh.length frame)
  | names =>
    simp only [Primitive.run, hh.get]
    cases h.get frame "dict" with
    | dict d =>
      have hplain : ∀ v ∈ (h.names d).map Value.str, Has h.everything v := by
        intro v hv
        obtain ⟨n, -, rfl⟩ := List.mem_map.mp hv
        exact has_of_refs rfl
      have hstrings : renameAll ρ.map ((h.names d).map Value.str) = (h.names d).map Value.str := by
        rw [renameAll_eq, List.map_map]
        rfl
      have hnew := (hh.newList hplain).heaps
      rw [hstrings] at hnew
      have hid := hh.newList_id ((h.names d).map Value.str) ((h.names d).map Value.str)
      simp only [Value.rename, hh.names, hid]
      exact hnew.done rfl
    | _ => exact hh.done rfl
  | log =>
    simp only [Primitive.run, hh.logText hframe]
    exact .log hh
  | freeze =>
    refine hh.done ?_
    rw [hh.get, hh.freeze (hh.region.has_get hframe "value")]
    cases h.freeze (h.get frame "value") <;> rfl
  | thaw =>
    simp only [Primitive.run, hh.get]
    cases h.get frame "text" with
    | str text =>
      have hroot : Ref.dict rt.root ∈ K := htame.root
      have hfit : Thaw.Fit ρ K rt.registry (some rt.root) h :=
        ⟨hK, hfixes, htame.defrosters, huniform.defrosters, by rintro d ⟨⟩; exact hK hroot⟩
      obtain ⟨hresult, hafter⟩ := hh.thawText hfit text
      rw [Option.map_some, hfixes rt.root hroot] at hresult hafter
      exact hafter.heaps.done hresult
    | _ => exact hh.done rfl

end Renaming.Heaps
end DictScript
