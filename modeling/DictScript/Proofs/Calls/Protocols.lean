import DictScript.Proofs.Calls.Arguments
import DictScript.Proofs.Calls.Within

/-!
The two ways to give a block its arguments: by position, in a call, or by name, with a dictionary
in which it is evaluated. Both come to running the body in a frame that is filled from the slots of
some dictionary; what is made beside that frame differs.
-/
namespace DictScript
open Heap
variable {rt : Runtime} {h k g : Heap} {e d a : DictId} {b : Block} {v x : Value} {depth : Nat}
variable {params : List String} {vs us kept : List Value} {stack base : List Frame} {S : Set Ref}
variable {log : List String} {pins : List (List Value)} {s : Slots} {m m' m₁ : Machine} {f : Frame}

theorem Heap.pinned_self (hpins : h.pins = pins) : { h with pins := pins } = h := by
  cases hpins
  rfl

/-! Work that leads from one state to another. -/

namespace Machine

inductive Works (rt : Runtime) (base : List Frame) : Machine → Machine → Prop where
  | here {m : Machine} : Works rt base m m
  | step {m m' : Machine} : ¬ m.Rests base → Works rt base (m.step rt) m' → Works rt base m m'

theorem Works.trans (hm : Works rt base m m') (hm' : Works rt base m' m₁) : Works rt base m m₁ := by
  induction hm with
  | here => exact hm'
  | step hrests _ ih => exact .step hrests (ih hm')

/-- From both it comes back in the same state, or from neither. -/
theorem Works.returns_iff (hm : Works rt base m m') :
    Returns rt base m m₁ ↔ Returns rt base m' m₁ := by
  induction hm with
  | here => exact Iff.rfl
  | step hrests _ ih =>
    refine Iff.trans ⟨fun hreturns => ?_, .step hrests⟩ ih
    cases hreturns with
    | here hhere => exact (hrests hhere).elim
    | step _ hreturns => exact hreturns

theorem Works.exists_run (hm : Works rt base m m') : ∃ n, m.run rt n = m' := by
  induction hm with
  | here => exact ⟨0, rfl⟩
  | step _ _ ih => exact exists_run_of_step ih

/-- An expression that is its own value comes to it, and the work that waits goes on. -/
theorem works_value (hf : f.isApplication = false)
    (hx : ∀ k, evalExpr rt depth x e k = (.ret v, k))
    (hpins : (f.resume rt depth v { h with pins := (v :: f.held) :: pins }).2.pins =
      (v :: f.held) :: pins) :
    Works rt stack (after stack depth log pins (.eval x e [f], h)) (after stack depth log pins
      (f.resume rt depth v { h with pins := (v :: f.held) :: pins })) := by
  refine .step (fun hrests => hrests.answered x e rfl) ?_
  rw [step_value hf hx]
  refine .step (fun hrests => List.cons_ne_self f stack hrests.stack) ?_
  rw [step_resume hf hpins]
  exact .here

end Machine

/-! Running a block. -/

def bodyCell (e : DictId) (b : Block) (s : Slots) : DictCell :=
  { parent := some b.env, scope := some b.env, caller := some e, name := b.name
    slots := bodySlots b s }

def runBody (rt : Runtime) (depth : Nat) (b : Block) (frame : DictId) (kept : List Value)
    (h : Heap) : Move × Heap :=
  if rt.maxDepth ≤ depth then (.failIn h frame (.exhausted rt.maxDepth), h)
  else (.body b.body frame [.application frame kept], h)

theorem heap_runBody (rt : Runtime) (depth : Nat) (b : Block) (frame : DictId) (kept : List Value)
    (h : Heap) : (runBody rt depth b frame kept h).2 = h := by
  unfold runBody
  split <;> rfl

theorem Heap.slots_newDict (c : DictCell) (ha : h.Allocated (.dict a))
    (howner : h.Allocated (.dict (h.owner a))) : (h.newDict c).1.slots a = h.slots a :=
  Heap.slots_congr (cell_newDict_of_allocated c ha) (cell_newDict_of_allocated c howner)

/-- Only the slots of the arguments matter. -/
theorem invoke_of_slots (hslots : h.slots a = s.toList) (henv : s.toList.lookup envName = none)
    (ha : h.Allocated (.dict a)) (howner : h.Allocated (.dict (h.owner a))) :
    invoke rt depth e a b kept h =
      runBody rt depth b ⟨h.dicts.size⟩
        (.block b :: .dict a :: .dict b.env :: .dict ⟨h.dicts.size⟩ :: kept)
        (h.newDict (bodyCell e b s)).1 := by
  have hkey : Key.of envName = .slot envName := by decide
  have hget : h.get a envName = .nil := by
    simp only [Heap.get, hkey, hslots, henv, Option.getD_none]
  have hlexical : lexicalScope e a b h = (h, b.env) := by rw [lexicalScope, hget]
  have hcopied : (h.frame b.env e b.name).1.slots a = s.toList :=
    (slots_newDict _ ha howner).trans hslots
  have hnew : (h.frame b.env e b.name).2 = ⟨h.dicts.size⟩ := rfl
  unfold invoke
  rw [hlexical]
  simp only [hcopied, hnew]
  rw [Heap.frame, putAll_newDict rfl]
  cases hreceiver : b.receiver with
  | none => simp only [runBody, bodyCell, bodySlots, hreceiver]
  | some d => simp only [put_newDict, runBody, bodyCell, bodySlots, hreceiver]

/-- The arguments of a call are slots of a new frame. -/
theorem invoke_argsFrame (rt : Runtime) (depth : Nat) (e : DictId) (b : Block)
    (henv : s.toList.lookup envName = none) :
    invoke rt depth e h.argsFrame b [] (h.withArgs e b s) =
      runBody rt depth b h.bodyFrame
        [.block b, .dict h.argsFrame, .dict b.env, .dict h.bodyFrame]
        ((h.withArgs e b s).newDict (bodyCell e b s)).1 := by
  have hframe : (⟨(h.withArgs e b s).dicts.size⟩ : DictId) = h.bodyFrame := by
    simp [withArgs, newDict, bodyFrame]
  have hmade : (h.withArgs e b s).Allocated (.dict h.argsFrame) :=
    (allocated_newDict _).mpr (.inl rfl)
  have howner : (h.withArgs e b s).owner h.argsFrame = h.argsFrame := by
    rw [owner, withArgs, cell_newDict, argsFrame, if_pos rfl]
    rfl
  rw [← hframe]
  exact invoke_of_slots (slots_argsFrame h e b s) henv hmade (howner.symm ▸ hmade)

/-! Arguments by position. -/

def Fixed (params : List String) : Prop := ∀ p ∈ params, restName? p = none ∧ Ordinary p

def argsCell (e : DictId) (b : Block) (s : Slots) : DictCell :=
  { parent := some e, scope := some e, caller := some e, name := b.name, slots := s }

def fixedSlots (params : List String) (vs : List Value) : Slots :=
  Slots.empty.putAll ((params.map canonical).zip vs)

theorem pins_bindArgs (rt : Runtime) (depth : Nat) (e : DictId) (b : Block)
    (hparams : Fixed params) (henv : s.toList.lookup envName = none) (vs : List Value) :
    (bindArgs rt depth e b h.argsFrame params (vs.map Value.quote) (h.withArgs e b s)).2.pins =
      h.pins := by
  have hinvoke : (invoke rt depth e h.argsFrame b [] (h.withArgs e b s)).2.pins = h.pins := by
    rw [invoke_argsFrame rt depth e b henv, heap_runBody]
    rfl
  cases params with
  | nil => exact hinvoke
  | cons p params =>
    obtain ⟨⟨hrest, -⟩, -⟩ := List.forall_mem_cons.mp hparams
    cases vs with
    | nil =>
      rw [List.map_nil, bindArgs_nil hrest]
      exact hinvoke
    | cons v vs =>
      rw [List.map_cons, bindArgs_cons hrest]
      rfl

namespace Machine

/-- The arguments are bound one by one. What is held meanwhile is part of the call. -/
theorem works_bindFixed (rt : Runtime) (stack : List Frame) (depth : Nat) (log : List String)
    (hparams : Fixed params) (hfits : vs.length ≤ params.length)
    (henv : s.toList.lookup envName = none) (he : .dict e ∈ S) (hframe : .dict h.argsFrame ∈ S)
    (hb : Has S (.block b)) (hvs : ∀ v ∈ vs, Has S v) {extra : List (List Value)}
    (hpins : h.pins = extra ++ pins) (hextra : ∀ us ∈ extra, ∀ u ∈ us, Has S u) :
    ∃ extra, (∀ us ∈ extra, ∀ u ∈ us, Has S u) ∧
      Works rt stack
        (after stack depth log pins (bindArgs rt depth e b h.argsFrame params (vs.map Value.quote)
          (h.withArgs e b s)))
        (after stack depth log pins (invoke rt depth e h.argsFrame b []
          (({ h with pins := extra ++ pins } : Heap).withArgs e b
            (s.putAll ((params.map canonical).zip vs))))) := by
  induction vs generalizing h s params extra with
  | nil =>
    refine ⟨extra, hextra, ?_⟩
    rw [List.zip_nil_right, ← hpins]
    cases params with
    | nil => exact .here
    | cons p params =>
      obtain ⟨⟨hrest, -⟩, -⟩ := List.forall_mem_cons.mp hparams
      rw [List.map_nil, bindArgs_nil hrest]
      exact .here
  | cons v vs ih =>
    cases params with
    | nil => cases hfits
    | cons p params =>
      obtain ⟨⟨hrest, hname⟩, hparams⟩ := List.forall_mem_cons.mp hparams
      obtain ⟨hv, hvs⟩ := List.forall_mem_cons.mp hvs
      let f := Frame.argument e b h.argsFrame p params (vs.map Value.quote)
      let h' : Heap := { h with pins := (v :: f.held) :: pins }
      have hresume : f.resume rt depth v (h'.withArgs e b s) = bindArgs rt depth e b h'.argsFrame
          params (vs.map Value.quote) (h'.withArgs e b (s.put (canonical p) v)) :=
        resume_argument hname
      have henv' := lookup_env_put henv hname v
      have hheld : ∀ us ∈ [v :: f.held], ∀ u ∈ us, Has S u := by
        intro us hus u hu
        rw [List.mem_singleton.mp hus] at hu
        simp only [f, Frame.held, List.mem_cons, List.mem_map] at hu
        obtain rfl | rfl | rfl | rfl | ⟨w, hw, rfl⟩ := hu
        · exact hv
        · exact has_dict.mpr he
        · exact hb
        · exact has_dict.mpr hframe
        · exact hvs w hw
      have hpins' : h'.pins = [v :: f.held] ++ pins := rfl
      obtain ⟨extra', hextra', hworks⟩ := ih (h := h') hparams (Nat.le_of_succ_le_succ hfits) henv'
        hframe hvs hpins' hheld
      refine ⟨extra', hextra', ?_⟩
      rw [List.map_cons, bindArgs_cons hrest]
      refine (works_value (f := f) (x := .quote v) rfl (fun _ => rfl) ?_).trans ?_
      · exact (congrArg (fun y => y.2.pins) hresume).trans
          (pins_bindArgs (h := h') rt depth e b hparams henv' vs)
      · have hnext : after stack depth log pins (f.resume rt depth v (h'.withArgs e b s)) =
            after stack depth log pins (bindArgs rt depth e b h'.argsFrame params
              (vs.map Value.quote) (h'.withArgs e b (s.put (canonical p) v))) := by rw [hresume]
        exact hnext ▸ hworks

/-! The body comes next, or there is no room for it. -/

end Machine

/-- What is made before the frame of the body: the frame in which the arguments are collected, a
view of the dictionary that has them, or nothing. -/
def Heap.beside (h : Heap) : Option DictCell → Heap
  | none => h
  | some c => (h.newDict c).1

namespace Heap

theorem cell_beside (o : Option DictCell) (ha : h.Allocated (.dict a)) :
    (h.beside o).cell a = h.cell a := by
  cases o with
  | none => rfl
  | some c => exact (cell_newDict h c).trans (if_neg (Nat.ne_of_lt ha))

theorem allocated_beside (o : Option DictCell) {r : Ref} (hr : h.Allocated r) :
    (h.beside o).Allocated r := by
  cases o with
  | none => exact hr
  | some c => exact (allocated_newDict c).mpr (.inr hr)

def Near (h : Heap) (us : List Value) (o : Option DictCell) (r : Ref) : Prop :=
  (∃ u ∈ us, r ∈ u.refs) ∨ o.isSome ∧ r = .dict ⟨h.dicts.size⟩

def viewCell (h : Heap) (d e : DictId) : DictCell where
  parent := some e
  scope := some e
  target := some (h.owner d)
  name := (h.cell d).name

/-- The scope inside `d` is `d` itself or a view that is made for it, which owns what `d` shows. -/
theorem within_beside (h : Heap) (d e : DictId) : ∃ o scope,
    h.within d e = ({ h.beside o with pins := h.pins }, scope) ∧
      (scope = d ∨ o.isSome ∧ scope = ⟨h.dicts.size⟩) ∧
      ∀ c, o = some c → ∀ r ∈ c.refs, r = .dict e ∨ r = .dict (h.owner d) := by
  cases hp : h.parent d with
  | some p => exact ⟨none, d, within_of_parent hp e, .inl rfl, by simp⟩
  | none =>
    refine ⟨some (h.viewCell d e), ⟨h.dicts.size⟩, within_of_no_parent hp e, .inr ⟨rfl, rfl⟩, ?_⟩
    rintro c ⟨⟩ r hr
    simpa [DictCell.refs, viewCell, Slots.empty] using hr

end Heap

namespace Machine

def Lands (rt : Runtime) (stack : List Frame) (depth : Nat) (log : List String) (h : Heap)
    (e : DictId) (b : Block) (s : Slots) (us : List Value) (o : Option DictCell) (m : Machine) :
    Prop :=
  ∃ held extra kept,
    let frame : DictId := ⟨(h.beside o).dicts.size⟩
    let k := (({ h.beside o with pins := extra ++ held :: h.pins } : Heap).newDict
      (bodyCell e b s)).1
    Works rt stack m (after stack depth log (held :: h.pins) (runBody rt depth b frame kept k)) ∧
      (∀ vs ∈ held :: extra, ∀ v ∈ vs, ∀ r ∈ v.refs, h.Near us o r) ∧
      ∀ v ∈ kept, ∀ r ∈ v.refs, r = .dict frame ∨ h.Near us o r

theorem call_lands (stack : List Frame) (log : List String) (hparams : Fixed b.params)
    (hfits : vs.length ≤ b.params.length)
    (henv : (fixedSlots b.params vs).toList.lookup envName = none)
    (hus : ∀ v ∈ (Request.call e b vs).held, v ∈ us) :
    (call rt stack depth log h e b vs).Lands rt stack depth log h e b (fixedSlots b.params vs) us
      (some (argsCell e b (fixedSlots b.params vs))) := by
  let S : Set Ref := {r | r = .dict h.argsFrame ∨ ∃ u ∈ us, r ∈ u.refs}
  have hheld : ∀ v ∈ (Request.call e b vs).held, Has S v :=
    fun v hv r hr => .inr ⟨v, hus v hv, hr⟩
  have hnear : ∀ {o : Option DictCell}, o.isSome → ∀ r ∈ S, h.Near us o r := by
    rintro o ho r (rfl | hr)
    · exact .inr ⟨ho, rfl⟩
    · exact .inl hr
  have harity : ¬ (b.fixedArity < (vs.map Value.quote).length ∧ ¬ b.hasRest) := by
    have hall : b.params.takeWhile (fun p => (restName? p).isNone) = b.params := by
      rw [List.takeWhile_eq_self_iff]
      intro p hp
      rw [(hparams p hp).1, Option.isNone_none]
    rw [BlockOf.fixedArity, hall, List.length_map]
    exact fun hless => Nat.not_lt.mpr hfits hless.1
  have hpins : (h.enter (Request.call e b vs).held).pins =
      [] ++ (Request.call e b vs).held :: h.pins := rfl
  obtain ⟨extra, hextra, hworks⟩ := works_bindFixed (h := h.enter (Request.call e b vs).held)
    (s := .empty) (S := S) rt stack depth log hparams hfits rfl
    (has_dict.mp (hheld (.dict e) (by simp [Request.held]))) (.inl rfl)
    (hheld (.block b) (by simp [Request.held])) (fun v hv => hheld v (by simp [Request.held, hv]))
    hpins (List.forall_mem_nil _)
  have hstart : call rt stack depth log h e b vs =
      after stack depth log ((Request.call e b vs).held :: h.pins)
        (bindArgs rt depth e b h.argsFrame b.params (vs.map Value.quote)
          ((h.enter (Request.call e b vs).held).withArgs e b .empty)) := by
    have hpins := pins_bindArgs (s := .empty) (h := h.enter (Request.call e b vs).held) rt depth e
      b hparams rfl vs
    have hbegin : (Request.call e b vs).begin rt depth (h.enter (Request.call e b vs).held) =
        bindArgs rt depth e b h.argsFrame b.params (vs.map Value.quote)
          ((h.enter (Request.call e b vs).held).withArgs e b .empty) := by
      show callBlock rt depth e b (vs.map Value.quote) (h.enter _) = _
      rw [callBlock, if_neg harity]
      rfl
    rw [call, hbegin, after]
    exact congrArg (proceed stack depth log _) (Heap.pinned_self hpins).symm
  have hinvoke := invoke_argsFrame (h := { h with
    pins := extra ++ (Request.call e b vs).held :: h.pins }) rt depth e b henv
  have hsize : (⟨(h.beside (some (argsCell e b (fixedSlots b.params vs)))).dicts.size⟩ : DictId) =
      h.bodyFrame := congrArg DictId.mk (Array.size_push _)
  have hb : Has S (.block b) := hheld (.block b) (by simp [Request.held])
  unfold Lands
  rw [hsize]
  refine ⟨(Request.call e b vs).held, extra,
    [.block b, .dict h.argsFrame, .dict b.env, .dict h.bodyFrame], ?_, fun ws hws v hv r hr => ?_,
    fun v hv r hr => ?_⟩
  · rw [hstart]
    exact hinvoke ▸ hworks
  · cases List.mem_cons.mp hws with
    | inl heq => exact hnear rfl r (hheld v (heq ▸ hv) r hr)
    | inr hws => exact hnear rfl r (hextra ws hws v hv r hr)
  · simp only [List.mem_cons, List.not_mem_nil, or_false] at hv
    obtain rfl | rfl | rfl | rfl := hv
    · exact .inr (hnear rfl r (hb r hr))
    · exact .inr (hnear rfl r (.inl (List.mem_singleton.mp hr)))
    · exact .inr (hnear rfl r (List.mem_singleton.mp hr ▸ has_env hb))
    · exact .inl (List.mem_singleton.mp hr)

/-! Arguments by name. -/

def evalWithin (rt : Runtime) (stack : List Frame) (depth : Nat) (log : List String) (h : Heap)
    (e d : DictId) (x : Value) : Machine :=
  let (move, k) := (Request.apply e d x).begin rt depth (h.enter (Request.apply e d x).held)
  proceed stack depth log move k

theorem evalWithin_lands (rt : Runtime) (stack : List Frame) (depth : Nat) (log : List String)
    (hslots : h.slots d = s.toList) (henv : s.toList.lookup envName = none) (hd : h.Allocated (.dict d))
    (howner : h.Allocated (.dict (h.owner d)))
    (hus : ∀ v ∈ (Request.apply e d (.block b)).held, v ∈ us) :
    ∃ o, (evalWithin rt stack depth log h e d (.block b)).Lands rt stack depth log h e b s us o ∧
      ∀ c, o = some c → ∀ r ∈ c.refs, r = .dict e ∨ r = .dict (h.owner d) := by
  let held := (Request.apply e d (.block b)).held
  obtain ⟨o, scope, hwithin, hscope, hrefs⟩ := within_beside (h.enter held) d e
  let f := Frame.within e d scope
  let g : Heap := { h.beside o with pins := (.block b :: f.held) :: held :: h.pins }
  have hheld : ∀ v ∈ held, ∀ r ∈ v.refs, h.Near us o r := fun v hv r hr => .inl ⟨v, hus v hv, hr⟩
  have hnear : ∀ r ∈ Value.refs (.dict scope), h.Near us o r := by
    intro r hr
    obtain rfl := List.mem_singleton.mp hr
    obtain rfl | ⟨ho, rfl⟩ := hscope
    · exact hheld (.dict scope) (by simp [held, Request.held]) _ (List.mem_singleton_self _)
    · exact .inr ⟨ho, rfl⟩
  have hstart : evalWithin rt stack depth log h e d (.block b) = after stack depth log
      (held :: h.pins) (.eval (.block b) scope [f], h.beside o) := by
    show proceed stack depth log (.eval (.block b) ((h.enter held).within d e).2
      [.within e d ((h.enter held).within d e).2]) ((h.enter held).within d e).1 = _
    rw [hwithin]
    cases o <;> rfl
  have hcell : ∀ {a : DictId}, h.Allocated (.dict a) → g.cell a = h.cell a :=
    fun ha => h.cell_beside o ha
  have hinvoke : f.resume rt depth (.block b) g = runBody rt depth b ⟨(h.beside o).dicts.size⟩
      [.block b, .dict d, .dict b.env, .dict ⟨(h.beside o).dicts.size⟩, .dict scope]
      (g.newDict (bodyCell e b s)).1 := by
    refine invoke_of_slots (h := g) ((slots_congr (hcell hd) (hcell howner)).trans hslots) henv
      (allocated_beside o hd) ?_
    rw [owner, hcell hd]
    exact allocated_beside o howner
  refine ⟨o, ⟨held, [.block b :: f.held],
    [.block b, .dict d, .dict b.env, .dict ⟨(h.beside o).dicts.size⟩, .dict scope], ?_, ?_, ?_⟩,
    hrefs⟩
  · rw [hstart]
    refine Works.trans (works_value (f := f) (v := .block b) rfl (fun _ => rfl) ?_) ?_
    · exact (congrArg (fun y => y.2.pins) hinvoke).trans (congrArg Heap.pins (heap_runBody ..))
    · exact hinvoke ▸ .here
  · intro ws hws v hv r hr
    simp only [List.mem_cons, List.not_mem_nil, or_false] at hws
    obtain rfl | rfl := hws
    · exact hheld v hv r hr
    · simp only [f, Frame.held, List.mem_cons, List.not_mem_nil, or_false] at hv
      obtain rfl | rfl | rfl | rfl := hv
      · exact hheld _ (by simp [held, Request.held]) r hr
      · exact hheld _ (by simp [held, Request.held]) r hr
      · exact hheld _ (by simp [held, Request.held]) r hr
      · exact hnear r hr
  · intro v hv r hr
    simp only [List.mem_cons, List.not_mem_nil, or_false] at hv
    obtain rfl | rfl | rfl | rfl | rfl := hv
    · exact .inr (hheld (.block b) (by simp [held, Request.held]) r hr)
    · exact .inr (hheld (.dict d) (by simp [held, Request.held]) r hr)
    · have hb : Has {r | h.Near us o r} (.block b) :=
        fun r hr => hheld (.block b) (by simp [held, Request.held]) r hr
      exact .inr (List.mem_singleton.mp hr ▸ has_env hb)
    · exact .inl (List.mem_singleton.mp hr)
    · exact .inr (hnear r hr)

end Machine
end DictScript
