import DictScript.Proofs.Parents.Primitives
import DictScript.Proofs.Parents.Rules

/-!
Runs of the machine. Every step works by operations on the heap, whether it goes on or fails, and so
keeps what every heap keeps.
-/
namespace DictScript
open Heap
variable {rt : Runtime} {env : DictId} {depth : Nat} {h k : Heap} {K L : Set Ref} {e v : Value}
variable {f : Frame} {below base : List (List Value)}

/-! Rules of the machine as a whole. -/

theorem safe_evalNative (hrt : rt.Lawful) {n : NativeId} (hg : h.Good K)
    (hroot : .dict rt.root ∈ allRefs h.roots) (henv : .dict env ∈ h.heldRefs)
    (hn : .native n ∈ K) : Safe rt.root h.pins (h, K) (evalNative rt depth n env h) := by
  have hrelease : Leads rt.root (h, K) (h, h.heldRefs) := leads_release hg.held fun _ hr => hr
  have hheld : h.Good h.heldRefs := hrelease.good hg
  unfold evalNative
  split
  · exact .after hrelease (safe_reply hheld hroot (Primitive.lawful_run hrt _ hheld hroot henv))
  · split
    · rename_i f hf
      exact .after hrelease (safe_reply hheld hroot (hrt.functions _ f hf h env hheld hroot henv))
    · exact (Sound.ret knows_nil).safe
  · refine (Sound.ret fun r hr => living_of_mem ?_).safe
    exact List.mem_singleton.mp hr ▸ hn

theorem safe_evalExpr (depth : Nat) (hrt : rt.Lawful) (hg : h.Good K)
    (hroot : .dict rt.root ∈ allRefs h.roots) (henv : .dict env ∈ h.heldRefs) (he : Has K e) :
    Safe rt.root h.pins (h, K) (evalExpr rt depth e env h) := by
  have henv' : Ref.dict env ∈ K := hg.held _ henv
  unfold evalExpr
  split
  · exact (sound_evalSymbol hg henv').safe
  · rename_i v
    have hv : Has K v := he
    exact (Sound.ret hv.knows).safe
  · exact (sound_evalLiteral hg henv' (has_dict.mp he)).safe
  · exact (sound_evalList hg henv' (living_of_mem (has_list.mp he))).safe
  · exact safe_evalNative hrt hg hroot henv (he _ (List.mem_singleton_self _))
  · exact (Sound.ret he.knows).safe

theorem safe_resume (depth : Nat) (hg : h.Good h.heldRefs) (hroot : .dict rt.root ∈ allRefs h.roots)
    (hpins : h.pins = (v :: f.held) :: below) (hf : f.Resumable rt.root below) :
    Safe rt.root below (h, h.heldRefs) (f.resume rt depth v h) := by
  have hv : Has h.heldRefs v := fun r hr => held_of_innermost hpins List.mem_cons_self hr
  have hheld : ∀ w ∈ f.held, Has h.heldRefs w :=
    fun w hw r hr => held_of_innermost hpins (List.mem_cons_of_mem _ hw) hr
  have htight : ∀ r ∈ h.heldRefs, h.Living h.heldRefs r := fun _ hr => living_of_mem hr
  cases f with
  | body rest env last =>
    cases rest with
    | nil => exact (Sound.ret hv.knows).safe
    | cons e es =>
      refine (Sound.eval (f := .body es env v) (hheld e (by simp [Frame.held])).knows ?_
        (by simp [Frame.held]) trivial).safe
      intro w hw
      simp only [Frame.held, List.mem_cons] at hw hheld
      obtain rfl | rfl | hw := hw
      · exact hv
      · exact hheld _ (.inr (.inl rfl))
      · exact hheld w (.inr (.inr (.inr hw)))
  | application frame kept => exact (Sound.ret hv.knows).safe
  | operator args env =>
    exact (sound_applyValue hg (has_dict.mp (hheld _ List.mem_cons_self)) hv
      fun e he => hheld e (List.mem_cons_of_mem _ he)).safe
  | argument env b frame param params args =>
    simp only [Frame.held, List.mem_cons] at hheld
    have hframe := has_dict.mp (hheld (.dict frame) (by simp))
    have hdef := leads_define (h := h) rt.root param hframe hv fun _ _ => htight
    unfold Frame.resume
    simp only
    generalize h.define frame param v = x at hdef ⊢
    obtain ⟨result, h₁⟩ := x
    refine (Sound.after hdef subset_rfl ?_).safe
    cases result with
    | error e => exact .raise e
    | ok _ =>
      exact sound_bindArgs (hdef.good hg) (has_dict.mp (hheld (.dict env) (by simp)))
        (hheld (.block b) (by simp)) hframe fun e he => hheld e (by simp [he])
  | remaining env b frame param collected args =>
    simp only [Frame.held, List.mem_cons] at hheld
    have hlist := has_list.mp (hheld (.list collected) (by simp))
    have hpush : Leads rt.root (h, h.heldRefs) (h.pushItem collected v, h.heldRefs) :=
      .of_op (.pushItem collected v (living_of_mem hlist) hv.knows) rfl rfl
    exact (Sound.after hpush subset_rfl (sound_collectRest (hpush.good hg)
      (has_dict.mp (hheld (.dict env) (by simp))) (hheld (.block b) (by simp))
      (has_dict.mp (hheld (.dict frame) (by simp))) hlist fun e he => hheld e (by simp [he]))).safe
  | within env dict scope =>
    simp only [Frame.held, List.mem_cons] at hheld
    exact (sound_finishWithin hg (has_dict.mp (hheld (.dict env) (by simp)))
      (has_dict.mp (hheld (.dict dict) (by simp))) (has_dict.mp (hheld (.dict scope) (by simp)))
      hv).safe
  | entry literal dict scope expr name names =>
    simp only [Frame.held, List.mem_cons] at hheld
    have hdict := has_dict.mp (hheld (.dict dict) (by simp))
    obtain ⟨hnamed, hv'⟩ := leads_nameBlock (h := h) rt.root name hv
    have hput := leads_put (h := (nameBlock name v h).1) rt.root hdict hv' (hf name (by simp))
    have hleads := hnamed.trans hput
    exact (Sound.after hleads subset_rfl (sound_evalEntries (hleads.good hg)
      (has_dict.mp (hheld (.dict literal) (by simp))) hdict
      (has_dict.mp (hheld (.dict scope) (by simp)))
      fun n hn => hf n (List.mem_cons_of_mem _ hn))).safe
  | index l env => exact (sound_indexList (has_list.mp (hheld _ List.mem_cons_self))).safe
  | operand op env want todo done =>
    simp only [Frame.held, List.mem_cons, List.mem_append, List.mem_map] at hheld
    unfold Frame.resume
    simp only
    split
    · exact (Sound.failIn env _).safe
    · refine (sound_evalOperands hg (has_dict.mp (hheld _ (.inl rfl))) ?_ ?_ fun _ => htight).safe
      · exact fun x hx => hheld x.2 (.inr (.inr ⟨x, hx, rfl⟩))
      · intro w hw
        cases List.mem_append.mp hw with
        | inl hw => exact hheld w (.inr (.inl hw))
        | inr hw => exact List.mem_singleton.mp hw ▸ hv
  | host resume kept => exact safe_reply hg hroot (hf h (.ok v) hg hroot hpins)

theorem safe_unwind (depth : Nat) (e : RuntimeError) (hg : h.Good h.heldRefs)
    (hroot : .dict rt.root ∈ allRefs h.roots) (hpins : h.pins = f.held :: below)
    (hf : f.Resumable rt.root below) :
    Safe rt.root below (h, h.heldRefs) (f.unwind rt depth e h) := by
  unfold Frame.unwind
  split
  · exact (Sound.raise _).safe
  · exact safe_reply hg hroot (hf h (.error e) hg hroot hpins)
  · exact (Sound.raise _).safe

/-! Steps and runs. -/

namespace Machine

/-- What every state of the machine keeps: it holds what the pending work needs, above `base`, and
all that it decides about lives. -/
structure Ok (rt : Runtime) (base : List (List Value)) (m : Machine) : Prop where
  good : m.heap.Good (m.heap.heldRefs ∪ {r | r ∈ m.control.refs})
  root : .dict rt.root ∈ allRefs m.heap.roots
  pins : m.heap.pins = m.stack.map Frame.held ++ base
  stacked : Stacked rt.root base m.stack
  inScope : m.control.InScope m.heap

theorem ok_of_known (depth : Nat) {stack : List Frame} {move : Move} (log : List String)
    (hg : k.Good L) (hroot : .dict rt.root ∈ allRefs k.roots)
    (hbelow : ∀ vs ∈ stack.map Frame.held ++ base, ∀ v ∈ vs, k.Knows L v)
    (hstacked : Stacked rt.root base stack)
    (hknown : move.Known rt.root (stack.map Frame.held ++ base) k L) :
    Ok rt base
      { control := move.control, stack := move.frames ++ stack, depth := depth, log := log
        heap := { k with
          pins := move.frames.map Frame.held ++ (stack.map Frame.held ++ base) } } where
  good := by
    refine hg.rehold ⟨_, _, rfl⟩ (fun r hr => ?_) hknown.control
    obtain ⟨v, hv, hr⟩ | ⟨vs, hvs, v, hv, hr⟩ := mem_heldRefs.mp hr
    · exact living_of_mem (hg.held r (mem_heldRefs.mpr (.inl ⟨v, hv, hr⟩)))
    · cases List.mem_append.mp hvs with
      | inl hvs =>
        obtain ⟨f, hf, rfl⟩ := List.mem_map.mp hvs
        exact hknown.frames f hf v hv r hr
      | inr hvs => exact hbelow vs hvs v hv r hr
  root := hroot
  pins := by
    rw [List.map_append, List.append_assoc]
  stacked := stacked_append hknown.stacked hstacked
  inScope := hknown.inScope

/-- What the work further down holds is in hand as long as the pins are as they were. -/
theorem knows_pins (hg : k.Good L) {vs : List Value} (hvs : vs ∈ k.pins) (hv : v ∈ vs) :
    k.Knows L v :=
  fun _ hr => living_of_mem (hg.held _ (mem_heldRefs.mpr (.inr ⟨vs, hvs, v, hv, hr⟩)))

/-- A rule that is safe on top of the stack leads to a state that is fine. -/
theorem ok_proceed {stack : List Frame} {x : Move × Heap} {log : List String} (hg : h.Good K)
    (hroot : .dict rt.root ∈ allRefs h.roots)
    (hpins : ∀ vs ∈ stack.map Frame.held ++ base, vs ∈ h.pins)
    (hstacked : Stacked rt.root base stack)
    (hsafe : Safe rt.root (stack.map Frame.held ++ base) (h, K) x)
    (hk : k = x.2 ∨ k = x.2.leave) (hafter : k.pins = stack.map Frame.held ++ base) :
    (proceed stack depth log x.1 k).Ok rt base := by
  obtain ⟨L, hlead, hknown⟩ := hsafe
  have hg' := hlead.good hg
  have hok := fun depth => ok_of_known depth (x.1.logged ++ log) hg'
    (hlead.root hroot) (fun vs hvs v hv => knows_pins hg' (hlead.pins ▸ hpins vs hvs) hv)
    hstacked hknown
  rw [proceed, hafter]
  cases hk with
  | inl hk => exact hk ▸ hok _
  | inr hk => exact hk ▸ hok _

/-- A step is a safe rule on the objects that are there, put into effect. Only a machine that has
ended takes none. -/
theorem Ok.exists_rule (hrt : rt.Lawful) {m : Machine} (hm : m.Ok rt base) :
    m.step rt = m ∨ ∃ stack depth log h K x k, m.step rt = proceed stack depth log x.1 k ∧
      h.dicts = m.heap.dicts ∧ h.Good K ∧ .dict rt.root ∈ allRefs h.roots ∧
      (∀ vs ∈ stack.map Frame.held ++ base, vs ∈ h.pins) ∧ Stacked rt.root base stack ∧
      Safe rt.root (stack.map Frame.held ++ base) (h, K) x ∧ (k = x.2 ∨ k = x.2.leave) ∧
      k.pins = stack.map Frame.held ++ base := by
  obtain ⟨control, stack, depth, h, log⟩ := m
  obtain ⟨hg, hroot, hpins, hstacked, hscope⟩ := hm
  simp only at hg hroot hpins hstacked hscope
  cases control with
  | eval e env =>
    have hsafe := safe_evalExpr depth hrt hg hroot hscope fun r hr => .inr hr
    have hafter := hsafe.pins.trans hpins
    rw [hpins] at hsafe
    exact .inr ⟨stack, depth, log, h, _, _, _, rfl, rfl, hg, hroot, hpins ▸ fun _ hvs => hvs,
      hstacked, hsafe, .inl rfl, hafter⟩
  | ret v =>
    cases stack with
    | nil => exact .inl rfl
    | cons f stack =>
      have hheld : h.hold v = { h with
          pins := (v :: f.held) :: (stack.map Frame.held ++ base) } := by
        rw [Heap.hold, hpins]
        rfl
      have hpins' : (h.hold v).pins = (v :: f.held) :: (stack.map Frame.held ++ base) := by
        rw [hheld]
      have hroot' : Ref.dict rt.root ∈ allRefs (h.hold v).roots := by
        rw [hheld]
        exact hroot
      have hg' : (h.hold v).Good (h.hold v).heldRefs := by
        have hnew := hg.rehold ⟨_, _, hheld⟩ (fun r hr => ?_)
          fun r hr => (Set.notMem_empty r hr).elim
        · rwa [Set.union_empty] at hnew
        · cases mem_heldRefs_hold hr with
          | inl hr => exact living_of_mem (.inl hr)
          | inr hr => exact living_of_mem (.inr hr)
      have hsafe := safe_resume (depthBelow f depth) hg' hroot' hpins' hstacked.1
      refine .inr ⟨stack, depthBelow f depth, log, _, _, _, _, rfl, dicts_hold h v, hg', hroot', ?_,
        hstacked.2, hsafe, .inr rfl, ?_⟩
      · rw [hpins']
        exact fun _ => List.mem_cons_of_mem _
      · show (f.resume rt (depthBelow f depth) v (h.hold v)).2.pins.tail = _
        rw [hsafe.pins, hpins', List.tail_cons]
  | raise e =>
    cases stack with
    | nil => exact .inl rfl
    | cons f stack =>
      have hg' : h.Good h.heldRefs := hg.focus (fun r hr => living_of_mem (.inl hr)) fun _ hr => hr
      have hsafe := safe_unwind (depthBelow f depth) e hg' hroot hpins hstacked.1
      refine .inr ⟨stack, depthBelow f depth, log, h, _, _, _, rfl, rfl, hg', hroot, ?_,
        hstacked.2, hsafe, .inr rfl, ?_⟩
      · rw [hpins]
        exact fun _ => List.mem_cons_of_mem _
      · show (f.unwind rt (depthBelow f depth) e h).2.pins.tail = _
        rw [hsafe.pins, hpins]
        rfl

theorem Ok.step (hrt : rt.Lawful) {m : Machine} (hm : m.Ok rt base) : (m.step rt).Ok rt base := by
  obtain hended | ⟨stack, depth, log, h, K, x, k, hstep, -, hg, hroot, hpins, hstacked, hsafe, hk,
    hafter⟩ := hm.exists_rule hrt
  · rwa [hended]
  · exact hstep ▸ ok_proceed hg hroot hpins hstacked hsafe hk hafter

/-- However many steps the machine takes, it keeps what every state keeps. -/
theorem Ok.run (hrt : rt.Lawful) (fuel : Nat) {m : Machine} (hm : m.Ok rt base) :
    (m.run rt fuel).Ok rt base := by
  induction fuel generalizing m with
  | zero => exact hm
  | succ fuel ih =>
    rw [Machine.run]
    split
    · exact hm
    · exact ih (hm.step hrt)

/-- The first state of a request, which holds what the request is about. -/
theorem ok_begin (request : Request) (log : List String) (hg : h.Good h.heldRefs)
    (hroot : .dict rt.root ∈ allRefs h.roots) (hheld : ∀ v ∈ request.held, Has h.heldRefs v) :
    (proceed [] 0 log (request.begin rt 0 (h.enter request.held)).1
      (request.begin rt 0 (h.enter request.held)).2).Ok rt (request.held :: h.pins) := by
  have hg' : (h.enter request.held).Good (h.enter request.held).heldRefs := by
    have hnew := hg.rehold (k := h.enter request.held) ⟨h.roots, request.held :: h.pins, rfl⟩
      (fun r hr => ?_) fun r hr => (Set.notMem_empty r hr).elim
    · rwa [Set.union_empty] at hnew
    · refine living_of_mem ?_
      obtain hroots | ⟨vs, hvs, v, hv, hr⟩ := mem_heldRefs.mp hr
      · exact mem_heldRefs.mpr (.inl hroots)
      · cases List.mem_cons.mp hvs with
        | inl heq => exact hheld v (heq ▸ hv) r hr
        | inr hvs => exact mem_heldRefs.mpr (.inr ⟨vs, hvs, v, hv, hr⟩)
  have hsafe := (sound_begin rt h.pins 0 request hg' hroot fun v hv r hr =>
    held_of_innermost rfl hv hr).safe
  exact ok_proceed hg' hroot (fun _ hvs => hvs) trivial hsafe (.inl rfl) hsafe.pins

end Machine
end DictScript
