import DictScript.Proofs.Parents.Thawing
import DictScript.Proofs.Regions.Tame

/-!
Thawing stays in a region too, whatever the stream: it reads what it has made itself, and the scope.
-/
namespace DictScript
open Heap

namespace Heap
variable {h : Heap} {S : Set Ref}

theorem edits_hold (v : Value) : Edits (h, S) (h.hold v, S) := by
  unfold Heap.hold
  split
  · exact .single (.hold h.roots [[v]])
  · rename_i vs rest _
    exact .single (.hold h.roots ((v :: vs) :: rest))

theorem edits_letGo (d : DictId) : Edits (h, S) (h.letGo d, S) := by
  unfold Heap.letGo
  split
  · exact .refl
  · rename_i vs rest _
    exact .single (.hold h.roots (vs.eraseP (·.isDict d) :: rest))

end Heap

namespace Thaw
variable {α β : Type} {s : Scene} {S T K : Set Ref} {t : Thawer} {v : Value} {d : DictId}
variable {l : ListId} {registry : Registry} {scope : Option DictId} {fuel : Nat} {inert : Bool}
variable {P : Set Ref → α → Prop} {Q : Set Ref → β → Prop}

structure Inside (s : Scene) (T : Set Ref) (t : Thawer) : Prop where
  edits : Edits s (t.heap, T)
  table : ∀ v ∈ t.table.toList, Has T v

def Tamely (s : Scene) (T : Set Ref) (x : Thaw α) (t : Thawer) (P : Set Ref → α → Prop) : Prop :=
  Leaves x t (fun a t' => ∃ T', T ⊆ T' ∧ Inside s T' t' ∧ P T' a)
    fun t' => ∃ T', Edits s (t'.heap, T')

theorem Tamely.bind {x : Thaw α} {f : α → Thaw β} (hx : Tamely s T x t P)
    (hf : ∀ a t' T', T ⊆ T' → Inside s T' t' → P T' a → Tamely s T' (f a) t' Q) :
    Tamely s T (x >>= f) t Q := by
  refine Leaves.bind hx ?_
  rintro a t' ⟨T', hT, ht', ha⟩
  refine (hf a t' T' hT ht' ha).mono ?_
  rintro b t'' ⟨T'', hT', ht'', hb⟩
  exact ⟨T'', hT.trans hT', ht'', hb⟩

namespace Inside

/-- Edits that number nothing. -/
theorem step (ht : Inside s T t) {h : Heap} {T' : Set Ref} (he : Edits (t.heap, T) (h, T')) :
    Inside s T' { t with heap := h } :=
  ⟨ht.edits.trans he, fun v hv => (ht.table v hv).mono he.sub⟩

theorem reading (ht : Inside s T t) (rest : List Token) : Inside s T { t with rest := rest } :=
  ⟨ht.edits, ht.table⟩

theorem pure (ht : Inside s T t) {a : α} (ha : P T a) :
    Tamely s T (Pure.pure a) t P :=
  ⟨T, subset_rfl, ht, ha⟩

theorem fail (ht : Inside s T t) (why : Malformed) : Tamely s T (fail why : Thaw α) t P :=
  ⟨T, ht.edits⟩

theorem throw (ht : Inside s T t) (e : RuntimeError) :
    Tamely s T (throw e : Thaw α) t P :=
  ⟨T, ht.edits⟩

theorem get (ht : Inside s T t) :
    Tamely s T MonadState.get t fun T' a => a = t ∧ Inside s T' t ∧ T' = T :=
  ⟨T, subset_rfl, ht, rfl, ht, rfl⟩

/-! The operations of a thaw, one by one. -/

theorem next (ht : Inside s T t) : Tamely s T next t fun _ _ => True := by
  refine Leaves.bind (leaves_get (Q := fun a t' => a = t ∧ t' = t) ⟨rfl, rfl⟩) ?_
  rintro a t' ⟨rfl, rfl⟩
  cases t'.rest with
  | nil => exact ⟨T, ht.edits⟩
  | cons _ rest => exact ⟨T, subset_rfl, ht.reading rest, trivial⟩

theorem close (m : Mark) (ht : Inside s T t) : Tamely s T (close m) t fun _ _ => True := by
  refine Leaves.bind (leaves_get (Q := fun a t' => a = t ∧ t' = t) ⟨rfl, rfl⟩) ?_
  rintro a t' ⟨rfl, rfl⟩
  cases t'.rest with
  | nil => exact ⟨T, ht.edits⟩
  | cons token rest =>
    cases token with
    | mark n =>
      by_cases hn : n = m
      · simp only [hn, if_true]
        exact ⟨T, subset_rfl, ht.reading rest, trivial⟩
      · simp only [hn, if_false]
        exact ⟨T, subset_rfl, ht, trivial⟩
    | _ => exact ⟨T, subset_rfl, ht, trivial⟩

theorem registered (ht : Inside s T t) (hv : Has T v) :
    Inside s T { t with table := t.table.push v, heap := t.heap.hold v } := by
  refine ⟨ht.edits.trans (edits_hold v), fun w hw => ?_⟩
  rw [Array.toList_push] at hw
  cases List.mem_append.mp hw with
  | inl hw => exact ht.table w hw
  | inr hw => exact List.mem_singleton.mp hw ▸ hv

theorem register (ht : Inside s T t) (hv : Has T v) :
    Tamely s T (register v) t fun _ _ => True :=
  .of_gives (gives_register v t) ⟨T, subset_rfl, ht.registered hv, trivial⟩

theorem discard_register (ht : Inside s T t) (hv : Has T v) :
    Tamely s T (discard (Thaw.register v)) t fun _ _ => True :=
  .of_gives (gives_register v t).discard ⟨T, subset_rfl, ht.registered hv, trivial⟩

theorem replace (ht : Inside s T t) (number : Nat) (hv : Has T v) :
    Tamely s T (replace number d v) t fun _ _ => True := by
  refine .of_gives (gives_modify _ t) ⟨T, subset_rfl, ⟨?_, fun w hw => ?_⟩, trivial⟩
  · exact ht.edits.trans ((edits_letGo d).trans (edits_hold v))
  · have hw : w ∈ t.table.set! number v := Array.mem_toList_iff.mp hw
    rw [Array.set!_eq_setIfInBounds] at hw
    cases Array.mem_or_eq_of_mem_setIfInBounds hw with
    | inl hw => exact ht.table w (Array.mem_toList_iff.mpr hw)
    | inr heq => exact heq ▸ hv

theorem change (ht : Inside s T t) {f : Heap → Heap} (he : Edits (t.heap, T) (f t.heap, T)) :
    Tamely s T (change f) t fun _ _ => True :=
  leaves_change ⟨T, subset_rfl, ht.step he, trivial⟩

theorem create (ht : Inside s T t) {f : Heap → Heap × α} {T' : Set Ref}
    (he : Edits (t.heap, T) ((f t.heap).1, T')) (hP : P T' (f t.heap).2) :
    Tamely s T (create f) t P :=
  leaves_create ⟨T', he.sub, ht.step he, hP⟩

theorem onHeap (ht : Inside s T t) {f : Heap → Except RuntimeError α × Heap} {T' : Set Ref}
    (he : Edits (t.heap, T) ((f t.heap).2, T')) (hP : ∀ a, (f t.heap).1 = .ok a → P T' a) :
    Tamely s T (onHeap f) t P :=
  leaves_onHeap ⟨T', ht.edits.trans he⟩ fun a ha => ⟨T', he.sub, ht.step he, hP a ha⟩

theorem blockName (ht : Inside s T t) : Tamely s T blockName t fun _ _ => True := by
  refine ht.next.bind ?_
  rintro token t' T' - ht' -
  cases token with
  | null => exact ht'.pure trivial
  | str name => exact ht'.pure trivial
  | _ => exact ht'.fail _

theorem paramNames (v : Value) (ht : Inside s T t) :
    Tamely s T (paramNames v) t fun _ _ => True := by
  refine Leaves.bind (leaves_get (Q := fun a t' => a = t ∧ t' = t) ⟨rfl, rfl⟩) ?_
  rintro a t' ⟨rfl, rfl⟩
  cases v with
  | list l =>
    cases hparams : (t'.heap.items l).mapM Value.sym? with
    | none =>
      simp only [hparams]
      exact ⟨T, ht.edits⟩
    | some params =>
      simp only [hparams]
      exact ⟨T, subset_rfl, ht, trivial⟩
  | _ => exact ⟨T, ht.edits⟩

theorem blockBody (hS : s.1.Region s.2) (ht : Inside s T t) (hv : Has T v) :
    Tamely s T (blockBody v) t fun T' vs => ∀ w ∈ vs, Has T' w := by
  refine Leaves.bind (leaves_get (Q := fun a t' => a = t ∧ t' = t) ⟨rfl, rfl⟩) ?_
  rintro a t' ⟨rfl, rfl⟩
  cases v with
  | list l =>
    exact ⟨T, subset_rfl, ht, fun w hw => (ht.edits.region hS).has_item (has_list.mp hv) hw⟩
  | _ => exact ⟨T, ht.edits⟩

theorem blockEnv (hscope : ∀ d, scope = some d → .dict d ∈ s.2) (ht : Inside s T t)
    (hv : Has T v) : Tamely s T (blockEnv scope v) t fun T' env => .dict env ∈ T' := by
  unfold Thaw.blockEnv
  split
  · exact ht.pure (has_dict.mp hv)
  · exact ht.pure (ht.edits.sub (hscope _ rfl))
  · exact ht.create (f := (·.newDict {}))
      (.single (.newDict {} rfl (by simp) (by simp) (by simp) (by simp))) (.inl rfl)
  · exact ht.get.bind fun _ _ _ _ ht' _ => ht'.fail _

theorem newDict (inert : Bool) (hscope : ∀ d, scope = some d → .dict d ∈ s.2)
    (ht : Inside s T t) : Tamely s T (newDict inert scope) t fun T' d => .dict d ∈ T' := by
  refine ht.create (f := fun h => h.newDict { parent := if inert then none else scope })
    (.single (.newDict _ rfl (fun p hp => ?_) (by simp) (by simp) (by simp))) (.inl rfl)
  have hp : (if inert then none else scope) = some p := hp
  split at hp
  · cases hp
  · exact ht.edits.sub (hscope p hp)

theorem reference (number : String) (ht : Inside s T t) :
    Tamely s T (reference number) t fun T' v => Has T' v := by
  refine Leaves.bind (leaves_get (Q := fun a t' => a = t ∧ t' = t) ⟨rfl, rfl⟩) ?_
  rintro a t' ⟨rfl, rfl⟩
  cases hi : (readIndex? number).bind fun i => t'.table[i]? with
  | none =>
    simp only [hi]
    exact ⟨T, ht.edits⟩
  | some v =>
    obtain ⟨i, -, hi'⟩ := Option.bind_eq_some_iff.mp hi
    simp only [hi]
    exact ⟨T, subset_rfl, ht, ht.table v (Array.mem_toList_iff.mpr (Array.mem_of_getElem? hi'))⟩

/-- A record is defrosted in the region. -/
theorem defrost (hS : s.1.Region s.2) (hK : K ⊆ s.2)
    (hscope : ∀ d, scope = some d → .dict d ∈ s.2)
    (hregistry : ∀ x ∈ registry, Defroster.Tame K x.2) (ht : Inside s T t) (hd : .dict d ∈ T)
    (tag : String) :
    Tamely s T (Thaw.onHeap fun h => registry.defrost tag h d scope) t fun T' v => Has T' v := by
  have hdefrost : ∃ T', Edits (t.heap, T) ((registry.defrost tag t.heap d scope).2, T') ∧
      ∀ v ∈ answerValues (registry.defrost tag t.heap d scope).1, Has T' v := by
    rw [Registry.defrost]
    cases hf : registry.lookup tag with
    | none => exact ⟨T, .refl, List.forall_mem_nil _⟩
    | some f =>
      obtain ⟨before, behind, heq, -⟩ := List.lookup_eq_some_iff.mp hf
      have hmem : (tag, f) ∈ registry := heq ▸ List.mem_append_right _ List.mem_cons_self
      exact hregistry _ hmem t.heap T d scope (ht.edits.region hS) (hK.trans ht.edits.sub) hd
        fun e he => ht.edits.sub (hscope e he)
  obtain ⟨T', he, hv⟩ := hdefrost
  refine ht.onHeap he fun v hok => hv v ?_
  rw [hok]
  exact List.mem_singleton_self v

theorem finishDict (hS : s.1.Region s.2) (hK : K ⊆ s.2)
    (hscope : ∀ d, scope = some d → .dict d ∈ s.2)
    (hregistry : ∀ x ∈ registry, Defroster.Tame K x.2) (ht : Inside s T t) (hd : .dict d ∈ T)
    (number : Nat) :
    Tamely s T (finishDict registry scope number d) t fun T' v => Has T' v := by
  refine ht.get.bind ?_
  rintro _ t' T' - ht' ⟨rfl, ht, rfl⟩
  simp only
  split
  · split
    · rename_i tag _
      refine (ht'.defrost hS hK hscope hregistry hd tag).bind fun v t₁ T₁ _ ht₁ hv => ?_
      exact (ht₁.replace number hv).bind fun _ t₂ T₂ hT₂ ht₂ _ => ht₂.pure (hv.mono hT₂)
    · exact ht'.throw _
  · exact ht'.pure (has_dict.mpr hd)

end Inside

/-! The three readers, each from the others with less fuel. -/

def TameValue (s : Scene) (scope : Option DictId) (registry : Registry) (fuel : Nat) : Prop :=
  ∀ inert T t, Inside s T t → Tamely s T (value registry scope fuel inert) t fun T' v => Has T' v

def TameItems (s : Scene) (scope : Option DictId) (registry : Registry) (fuel : Nat) : Prop :=
  ∀ inert T t l, Inside s T t → .list l ∈ T →
    Tamely s T (items registry scope fuel inert l) t fun _ _ => True

def TameEntries (s : Scene) (scope : Option DictId) (registry : Registry) (fuel : Nat) : Prop :=
  ∀ inert T t d, Inside s T t → .dict d ∈ T →
    Tamely s T (entries registry scope fuel inert d) t fun _ _ => True

theorem tameItems_succ (hvalue : TameValue s scope registry fuel)
    (hitems : TameItems s scope registry fuel) : TameItems s scope registry (fuel + 1) := by
  intro inert T t l ht hl
  refine (ht.close _).bind ?_
  rintro closed t₁ T₁ hT₁ ht₁ -
  cases closed with
  | true => exact ht₁.pure trivial
  | false =>
    refine (hvalue inert T₁ t₁ ht₁).bind fun v t₂ T₂ hT₂ ht₂ hv => ?_
    have hl₂ := hT₂ (hT₁ hl)
    refine (ht₂.change (f := (·.pushItem l v)) (.single (.pushItem l v hl₂ hv))).bind ?_
    rintro - t₃ T₃ hT₃ ht₃ -
    exact hitems inert T₃ t₃ l ht₃ (hT₃ hl₂)

theorem tameEntries_succ (hvalue : TameValue s scope registry fuel)
    (hentries : TameEntries s scope registry fuel) : TameEntries s scope registry (fuel + 1) := by
  intro inert T t d ht hd
  refine (ht.close _).bind ?_
  rintro closed t₁ T₁ hT₁ ht₁ -
  cases closed with
  | true => exact ht₁.pure trivial
  | false =>
    refine ht₁.next.bind ?_
    rintro token t₂ T₂ hT₂ ht₂ -
    cases token with
    | str key =>
      refine (hvalue inert T₂ t₂ ht₂).bind fun v t₃ T₃ hT₃ ht₃ hv => ?_
      have hd₃ := hT₃ (hT₂ (hT₁ hd))
      refine (ht₃.onHeap (f := (·.define d key v)) (P := fun _ _ => True)
        (edits_define key hd₃ hv) fun _ _ => trivial).bind ?_
      rintro - t₄ T₄ hT₄ ht₄ -
      exact hentries inert T₄ t₄ d ht₄ (hT₄ hd₃)
    | _ => exact ht₂.fail _

/-- The rest of a block, behind its mark. -/
theorem tamely_block (hS : s.1.Region s.2) (hscope : ∀ d, scope = some d → .dict d ∈ s.2)
    (hvalue : TameValue s scope registry fuel) (ht : Inside s T t) :
    Tamely s T (do
        let name ← blockName
        let params ← paramNames (← value registry scope fuel inert)
        let env ← blockEnv scope (← value registry scope fuel inert)
        change (·.hold (.dict env))
        let body ← blockBody (← value registry scope fuel inert)
        change (·.letGo env)
        if ← close .blockClose then
          create (·.newBlock
            { id := 0, name := name, params := params, body := body, env := env, receiver := none })
        else fail (.expected Mark.blockClose.text)) t fun T' v => Has T' v := by
  refine ht.blockName.bind ?_
  rintro name t₁ T₁ - ht₁ -
  refine (hvalue inert T₁ t₁ ht₁).bind ?_
  rintro v₂ t₂ T₂ - ht₂ -
  refine (ht₂.paramNames v₂).bind ?_
  rintro params t₃ T₃ - ht₃ -
  refine (hvalue inert T₃ t₃ ht₃).bind fun v₄ t₄ T₄ _ ht₄ hv₄ => ?_
  refine (ht₄.blockEnv hscope hv₄).bind fun env t₅ T₅ _ ht₅ henv => ?_
  refine (ht₅.change (edits_hold _)).bind ?_
  rintro - t₆ T₆ hT₆ ht₆ -
  refine (hvalue inert T₆ t₆ ht₆).bind fun v₇ t₇ T₇ hT₇ ht₇ hv₇ => ?_
  refine (ht₇.blockBody hS hv₇).bind fun body t₈ T₈ hT₈ ht₈ hbody => ?_
  refine (ht₈.change (edits_letGo env)).bind ?_
  rintro - t₉ T₉ hT₉ ht₉ -
  refine (ht₉.close .blockClose).bind ?_
  rintro closed t T hT ht -
  cases closed with
  | false => exact ht.fail _
  | true =>
    refine ht.create (f := (·.newBlock _)) (.single (.newBlock _)) fun r hr => ?_
    simp only [newBlock, Value.refs, blockRefs, Option.toList_none, List.map_nil,
      List.nil_append, List.mem_cons] at hr
    cases hr with
    | inl heq => exact heq ▸ hT (hT₉ (hT₈ (hT₇ (hT₆ henv))))
    | inr hr =>
      obtain ⟨w, hw, hr⟩ := mem_allRefs.mp hr
      exact hT (hT₉ (hbody w hw r hr))

theorem tameValue_succ (hS : s.1.Region s.2) (hK : K ⊆ s.2)
    (hscope : ∀ d, scope = some d → .dict d ∈ s.2)
    (hregistry : ∀ x ∈ registry, Defroster.Tame K x.2)
    (hvalue : TameValue s scope registry fuel) (hitems : TameItems s scope registry fuel)
    (hentries : TameEntries s scope registry fuel) : TameValue s scope registry (fuel + 1) := by
  intro inert T t ht
  refine ht.next.bind ?_
  rintro token t₁ T₁ - ht₁ -
  have hquoted : ∀ (quote : Value → Value) inert', (∀ v, (quote v).refs = v.refs) →
      Tamely s T₁ (do return quote (← value registry scope fuel inert')) t₁
        fun T' v => Has T' v := by
    intro quote inert' hrefs
    refine (hvalue inert' T₁ t₁ ht₁).bind fun v t₂ T₂ _ ht₂ hv => ht₂.pure fun r hr => ?_
    exact hv r (hrefs v ▸ hr)
  cases token with
  | null | bool | num | str | sym => exact ht₁.pure (has_of_refs rfl)
  | ref number => exact ht₁.reference number
  | mark m =>
    cases m with
    | quote => exact hquoted .quote inert fun _ => rfl
    | fullQuote => exact hquoted .fullQuote true fun _ => rfl
    | listOpen =>
      refine (ht₁.create (f := (·.newList [])) (P := fun T' l => .list l ∈ T')
        (.single (.newList [] (List.forall_mem_nil _))) (.inl rfl)).bind fun l t₂ T₂ _ ht₂ hl => ?_
      refine (ht₂.discard_register (has_list.mpr hl)).bind fun _ t₃ T₃ hT₃ ht₃ _ => ?_
      refine (hitems inert T₃ t₃ l ht₃ (hT₃ hl)).bind fun _ t₄ T₄ hT₄ ht₄ _ => ?_
      exact ht₄.pure (has_list.mpr (hT₄ (hT₃ hl)))
    | dictOpen =>
      refine (ht₁.newDict inert hscope).bind fun d t₂ T₂ _ ht₂ hd => ?_
      refine (ht₂.register (has_dict.mpr hd)).bind fun number t₃ T₃ hT₃ ht₃ _ => ?_
      refine (hentries inert T₃ t₃ d ht₃ (hT₃ hd)).bind fun _ t₄ T₄ hT₄ ht₄ _ => ?_
      exact ht₄.finishDict hS hK hscope hregistry (hT₄ (hT₃ hd)) number
    | blockOpen => exact tamely_block hS hscope hvalue ht₁
    | _ => exact ht₁.fail _
  | other text => exact ht₁.fail _
  | nested j => exact ht₁.fail _

/-- Every stream is read in the region, whatever the fuel. -/
theorem tame_all (hS : s.1.Region s.2) (hK : K ⊆ s.2)
    (hscope : ∀ d, scope = some d → .dict d ∈ s.2)
    (hregistry : ∀ x ∈ registry, Defroster.Tame K x.2) (fuel : Nat) :
    TameValue s scope registry fuel ∧ TameItems s scope registry fuel ∧
      TameEntries s scope registry fuel := by
  induction fuel with
  | zero =>
    refine ⟨fun inert T t ht => ?_, fun inert T t l ht _ => ?_, fun inert T t d ht _ => ?_⟩
    · exact ht.fail _
    · exact ht.fail _
    · exact ht.fail _
  | succ fuel ih =>
    obtain ⟨hvalue, hitems, hentries⟩ := ih
    exact ⟨tameValue_succ hS hK hscope hregistry hvalue hitems hentries,
      tameItems_succ hvalue hitems, tameEntries_succ hvalue hentries⟩

theorem tamely_whole (hS : s.1.Region s.2) (hK : K ⊆ s.2)
    (hscope : ∀ d, scope = some d → .dict d ∈ s.2)
    (hregistry : ∀ x ∈ registry, Defroster.Tame K x.2) (count : Nat) (ht : Inside s T t) :
    Tamely s T (whole registry scope count) t fun T' v => Has T' v := by
  refine ((tame_all hS hK hscope hregistry _).1 false T t ht).bind fun v t₁ T₁ _ ht₁ hv => ?_
  refine ht₁.get.bind ?_
  rintro _ t₂ T₂ hT₂ ht₂ ⟨rfl, -⟩
  split
  · exact ht₂.pure (hv.mono hT₂)
  · exact ht₂.fail _

end Thaw

namespace Heap
variable {h : Heap} {S K : Set Ref} {registry : Registry} {scope : Option DictId}

theorem edits_thawTokens (hS : h.Region S) (hK : K ⊆ S) (hscope : ∀ d, scope = some d → .dict d ∈ S)
    (hregistry : ∀ x ∈ registry, Defroster.Tame K x.2) (tokens : List Token) :
    ∃ T, Edits (h, S) ((h.thawTokens registry tokens scope).2, T) ∧
      ∀ v ∈ answerValues (h.thawTokens registry tokens scope).1, Has T v := by
  have hwhole := Thaw.tamely_whole (s := (h, S)) hS hK hscope hregistry tokens.length
    (t := { heap := h.enter [], rest := tokens })
    ⟨.single (.hold h.roots ([] :: h.pins)), List.forall_mem_nil _⟩
  rw [Thaw.Tamely, Thaw.Leaves] at hwhole
  unfold thawTokens
  generalize (Thaw.whole registry scope tokens.length).run.run
    { heap := h.enter [], rest := tokens } = x at hwhole ⊢
  obtain ⟨result, t⟩ := x
  simp only
  have hleave : ∀ T, Edits (t.heap, T) (t.heap.leave, T) :=
    fun T => .single (.hold t.heap.roots t.heap.pins.tail)
  cases result with
  | error e =>
    obtain ⟨T, hedits⟩ := hwhole
    exact ⟨T, hedits.trans (hleave T), List.forall_mem_nil _⟩
  | ok v =>
    obtain ⟨T, -, ht, hv⟩ := hwhole
    exact ⟨T, ht.edits.trans (hleave T), List.forall_mem_singleton.mpr hv⟩

theorem edits_thaw (hS : h.Region S) (hK : K ⊆ S) (hscope : ∀ d, scope = some d → .dict d ∈ S)
    (hregistry : ∀ x ∈ registry, Defroster.Tame K x.2) (frozen : Json) :
    ∃ T, Edits (h, S) ((h.thaw registry frozen scope).2, T) ∧
      ∀ v ∈ answerValues (h.thaw registry frozen scope).1, Has T v := by
  unfold thaw
  split
  · exact edits_thawTokens hS hK hscope hregistry _
  · exact ⟨S, .refl, List.forall_mem_nil _⟩

theorem edits_thawText (hS : h.Region S) (hK : K ⊆ S) (hscope : ∀ d, scope = some d → .dict d ∈ S)
    (hregistry : ∀ x ∈ registry, Defroster.Tame K x.2) (text : String) :
    ∃ T, Edits (h, S) ((h.thawText registry text scope).2, T) ∧
      ∀ v ∈ answerValues (h.thawText registry text scope).1, Has T v := by
  unfold thawText
  split
  · exact edits_thaw hS hK hscope hregistry _
  · exact ⟨S, .refl, List.forall_mem_nil _⟩

end Heap
end DictScript
