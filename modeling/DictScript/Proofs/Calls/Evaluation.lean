import DictScript.Proofs.Calls.Binding
import DictScript.Proofs.Regions.Run

/-!
Expressions that are evaluated one after another, each for a piece of work that waits for its value
and then has the next one evaluated.
-/
namespace DictScript
open Heap
variable {rt : Runtime} {env : DictId} {depth : Nat} {h k : Heap} {S K : Set Ref} {e v : Value}
variable {es vs ws : List Value} {f : Frame} {stack base : List Frame} {m m' m₁ m₂ : Machine}
variable {log : List String} {pins : List (List Value)} {error : RuntimeError}

structure Heap.SameObjects (h k : Heap) : Prop where
  lists : k.lists = h.lists
  dicts : k.dicts = h.dicts
  natives : k.natives = h.natives

theorem Heap.SameObjects.trans {g : Heap} (hk : SameObjects g h) (hh : SameObjects h k) :
    SameObjects g k :=
  ⟨hh.lists.trans hk.lists, hh.dicts.trans hk.dicts, hh.natives.trans hk.natives⟩

theorem Heap.sameObjects_hold (h : Heap) (v : Value) : SameObjects h (h.hold v) :=
  ⟨lists_hold h v, dicts_hold h v, natives_hold h v⟩

namespace Machine

structure Awaits (env : DictId) (stack : List Frame) (e : Value) (f : Frame) (m : Machine) :
    Prop where
  control : m.control = .eval e env
  stack : m.stack = f :: stack

/-- From `m` to `m'` each expression is evaluated once, in order and in `env`, and comes to its
value. Between two of them there is the one step in which the first is taken note of. -/
inductive Evaluates (rt : Runtime) (env : DictId) (stack : List Frame) :
    List Value → List Value → Machine → Machine → Prop where
  | done {m : Machine} : Evaluates rt env stack [] [] m m
  | next {e v : Value} {es vs : List Value} {f : Frame} {m m₁ m' : Machine} :
      m.Awaits env stack e f → Returns rt (f :: stack) m m₁ → m₁.control = .ret v →
      Evaluates rt env stack es vs (m₁.step rt) m' →
      Evaluates rt env stack (e :: es) (v :: vs) m m'

inductive Stops (rt : Runtime) (env : DictId) (stack : List Frame) :
    List Value → Machine → Prop where
  | fails {e : Value} {es : List Value} {f : Frame} {m m₁ : Machine} {error : RuntimeError} :
      m.Awaits env stack e f → Returns rt (f :: stack) m m₁ → m₁.control = .raise error →
      (m₁.step rt).control = .raise error → (m₁.step rt).stack = stack →
      Stops rt env stack (e :: es) m
  | hangs {e : Value} {es : List Value} {f : Frame} {m : Machine} :
      m.Awaits env stack e f → (∀ m₁, ¬ Returns rt (f :: stack) m m₁) →
      Stops rt env stack (e :: es) m
  | later {e v : Value} {es : List Value} {f : Frame} {m m₁ : Machine} :
      m.Awaits env stack e f → Returns rt (f :: stack) m m₁ → m₁.control = .ret v →
      Stops rt env stack es (m₁.step rt) → Stops rt env stack (e :: es) m

/-! There is one way in which it goes. -/

theorem Awaits.frame_eq {g : Frame} (hf : m.Awaits env stack e f) (hg : m.Awaits env stack v g) :
    f = g :=
  (List.cons.inj (hf.stack.symm.trans hg.stack)).1

theorem Returns.unique (h₁ : Returns rt base m m₁) (h₂ : Returns rt base m m₂) : m₁ = m₂ := by
  induction h₁ with
  | here hrests =>
    cases h₂ with
    | here => rfl
    | step hworks _ => exact (hworks hrests).elim
  | step hworks _ ih =>
    cases h₂ with
    | here hrests => exact (hworks hrests).elim
    | step _ hreturns => exact ih hreturns

/-- The same expression comes back in the same state. -/
theorem Awaits.returns_eq {g : Frame} (hf : m.Awaits env stack e f)
    (hg : m.Awaits env stack v g) (h₁ : Returns rt (f :: stack) m m₁)
    (h₂ : Returns rt (g :: stack) m m₂) : m₁ = m₂ := by
  cases hf.frame_eq hg
  exact h₁.unique h₂

theorem ret_eq {w : Value} (hv : m.control = .ret v) (hw : m.control = .ret w) : v = w := by
  rw [hv] at hw
  exact Control.ret.inj hw

theorem Evaluates.unique {m'' : Machine} (hvs : Evaluates rt env stack es vs m m')
    (hws : Evaluates rt env stack es ws m m'') : vs = ws ∧ m' = m'' := by
  induction hvs generalizing ws with
  | done =>
    cases hws
    exact ⟨rfl, rfl⟩
  | next hawaits hreturns hret _ ih =>
    cases hws with
    | next hawaits' hreturns' hret' hrest =>
      cases hawaits.returns_eq hawaits' hreturns hreturns'
      obtain ⟨rfl, rfl⟩ := ih hrest
      exact ⟨by rw [ret_eq hret hret'], rfl⟩

theorem Evaluates.not_stops (hvs : Evaluates rt env stack es vs m m') :
    ¬ Stops rt env stack es m := by
  induction hvs with
  | done => exact nofun
  | next hawaits hreturns hret _ ih =>
    intro hstops
    cases hstops with
    | fails hawaits' hreturns' hraise =>
      cases hawaits.returns_eq hawaits' hreturns hreturns'
      exact nomatch hret.symm.trans hraise
    | hangs hawaits' hnever =>
      cases hawaits.frame_eq hawaits'
      exact hnever _ hreturns
    | later hawaits' hreturns' _ hstops =>
      cases hawaits.returns_eq hawaits' hreturns hreturns'
      exact ih hstops

theorem Evaluates.length_eq (hvs : Evaluates rt env stack es vs m m') : vs.length = es.length := by
  induction hvs with
  | done => rfl
  | next _ _ _ _ ih => rw [List.length_cons, List.length_cons, ih]

/-! It is part of a run. -/

theorem step_of_result (hresult : m.result?.isSome) : m.step rt = m := by
  obtain ⟨control, stack, depth, h, log⟩ := m
  cases control with
  | eval e env => cases hresult
  | ret v | raise e =>
    cases stack with
    | nil => rfl
    | cons f stack => cases hresult

theorem run_of_result (hresult : m.result?.isSome) (n : Nat) : m.run rt n = m := by
  obtain ⟨result, hresult⟩ := Option.isSome_iff_exists.mp hresult
  cases n with
  | zero => rfl
  | succ n => simp only [run, hresult]

/-- A step can be put in front of a run. -/
theorem exists_run_of_step (hrun : ∃ n, (m.step rt).run rt n = m') : ∃ n, m.run rt n = m' := by
  obtain ⟨n, hn⟩ := hrun
  cases hresult : m.result? with
  | none => exact ⟨n + 1, by simpa only [run, hresult] using hn⟩
  | some result =>
    have hended : m.result?.isSome := by rw [hresult]; rfl
    exact ⟨n, by rwa [step_of_result hended] at hn⟩

theorem Returns.exists_run (hreturns : Returns rt base m m') : ∃ n, m.run rt n = m' := by
  induction hreturns with
  | here => exact ⟨0, rfl⟩
  | step _ _ ih => exact exists_run_of_step ih

theorem run_add (m : Machine) (n k : Nat) : m.run rt (n + k) = (m.run rt n).run rt k := by
  induction n generalizing m with
  | zero => rw [Nat.zero_add, run]
  | succ n ih =>
    rw [Nat.succ_add, run, run]
    cases hresult : m.result? with
    | none => exact ih (m.step rt)
    | some result => exact (run_of_result (by rw [hresult]; rfl) k).symm

/-- Something is evaluated, or waits on top of `n` pieces of work. -/
def busy (n : Nat) (m : Machine) : Bool :=
  match m.control with
  | .eval _ _ => true
  | _ => n < m.stack.length

theorem not_rests_of_busy (hm : m.busy base.length = true) : ¬ m.Rests base := by
  rintro ⟨rfl, hanswered⟩
  obtain ⟨control, stack, depth, h, log⟩ := m
  cases control with
  | eval e env => exact hanswered e env rfl
  | ret v | raise e => simp [busy] at hm

theorem returns_run {n : Nat} (hbusy : ∀ k < n, (m.run rt k).busy base.length)
    (hrests : (m.run rt n).Rests base) : Returns rt base m (m.run rt n) := by
  induction n generalizing m with
  | zero => exact .here hrests
  | succ n ih =>
    have hworks : ¬ m.Rests base := not_rests_of_busy (hbusy 0 n.succ_pos)
    have hpending : m.result? = none := by
      by_contra hended
      rw [run_of_result (Option.isSome_iff_ne_none.mpr hended)] at hrests
      exact hworks hrests
    have hstep : ∀ k, m.run rt (k + 1) = (m.step rt).run rt k := by
      intro k
      simp only [run, hpending]
    rw [hstep] at hrests ⊢
    exact .step hworks (ih (fun k hk => hstep k ▸ hbusy (k + 1) (Nat.succ_lt_succ hk)) hrests)

theorem Evaluates.exists_run (hvs : Evaluates rt env stack es vs m m') :
    ∃ n, m.run rt n = m' := by
  induction hvs with
  | done => exact ⟨0, rfl⟩
  | next _ hreturns _ _ ih =>
    obtain ⟨n, hn⟩ := hreturns.exists_run
    obtain ⟨k, hk⟩ := exists_run_of_step ih
    exact ⟨n + k, by rw [run_add, hn, hk]⟩

/-! What lies on the work that waits is finished first. -/

/-- Work stays where it is until the machine comes back to it. -/
theorem step_above {above : List Frame} (rt : Runtime) (hstack : m.stack = above ++ base)
    (hworks : ¬ m.Rests base) : ∃ above', (m.step rt).stack = above' ++ base := by
  obtain ⟨control, stack, depth, h, log⟩ := m
  obtain rfl : stack = above ++ base := hstack
  cases control with
  | eval e env => exact ⟨_, (List.append_assoc _ _ _).symm⟩
  | ret v | raise e =>
    cases above with
    | nil => exact (hworks ⟨rfl, by simp⟩).elim
    | cons f above => exact ⟨_, (List.append_assoc _ _ _).symm⟩

theorem not_rests_below {above : List Frame} (hstack : m.stack = above ++ f :: base) :
    ¬ m.Rests base := by
  intro hrests
  have hlength := congrArg List.length (hstack.symm.trans hrests.stack)
  rw [List.length_append, List.length_cons] at hlength
  omega

/-- On the way down to `base` the machine comes back to the work that lies on it. -/
theorem returns_cons_iff {above : List Frame} (hstack : m.stack = above ++ f :: base) :
    Returns rt base m m₁ ↔ ∃ m', Returns rt (f :: base) m m' ∧ Returns rt base m' m₁ := by
  constructor
  · intro hreturns
    induction hreturns generalizing above with
    | here hrests => exact (not_rests_below hstack hrests).elim
    | @step m m₁ hworks hreturns ih =>
      by_cases hrests : m.Rests (f :: base)
      · exact ⟨m, .here hrests, .step hworks hreturns⟩
      · obtain ⟨above', hstack'⟩ := step_above rt hstack hrests
        obtain ⟨m', hm', hm₁⟩ := ih hstack'
        exact ⟨m', .step hrests hm', hm₁⟩
  · rintro ⟨m', hm', hm₁⟩
    induction hm' generalizing above with
    | here => exact hm₁
    | step hworks _ ih =>
      obtain ⟨above', hstack'⟩ := step_above rt hstack hworks
      exact .step (not_rests_below hstack) (ih hstack' hm₁)

theorem returns_of_rests (hrests : m.Rests base) : Returns rt base m m₁ ↔ m₁ = m := by
  constructor
  · rintro (_ | ⟨hworks, -⟩)
    · rfl
    · exact (hworks hrests).elim
  · rintro rfl
    exact .here hrests

/-! Quotes. -/

/-- A quoted value is there at once, as it is. -/
theorem Awaits.returns_quote (rt : Runtime) (hawaits : m.Awaits env stack (.quote v) f) :
    ∃ m₁, Returns rt (f :: stack) m m₁ ∧ m₁.control = .ret v ∧ m₁.heap = m.heap := by
  obtain ⟨control, frames, depth, h, log⟩ := m
  obtain ⟨rfl, rfl⟩ : control = .eval (.quote v) env ∧ frames = f :: stack :=
    ⟨hawaits.control, hawaits.stack⟩
  refine ⟨_, .step (fun hrests => hrests.answered _ _ rfl) (.here ⟨rfl, ?_⟩), rfl, rfl⟩
  exact fun e env heval => nomatch heval

theorem Evaluates.eq_of_quotes (hvs : Evaluates rt env stack (ws.map Value.quote) vs m m') :
    vs = ws := by
  induction ws generalizing vs m with
  | nil =>
    cases hvs
    rfl
  | cons w ws ih =>
    cases hvs with
    | next hawaits hreturns hret hrest =>
      obtain ⟨m₁, hreturns', hret', -⟩ := hawaits.returns_quote rt
      cases hreturns.unique hreturns'
      rw [ret_eq hret hret', ih hrest]

theorem not_stops_quotes : ¬ Stops rt env stack (ws.map Value.quote) m := by
  induction ws generalizing m with
  | nil => exact nofun
  | cons w ws ih =>
    intro hstops
    cases hstops with
    | fails hawaits hreturns hraise =>
      obtain ⟨m₁, hreturns', hret, -⟩ := hawaits.returns_quote rt
      cases hreturns.unique hreturns'
      exact nomatch hret.symm.trans hraise
    | hangs hawaits hnever =>
      obtain ⟨m₁, hreturns, -, -⟩ := hawaits.returns_quote rt
      exact hnever m₁ hreturns
    | later _ _ _ hstops => exact ih hstops

/-! One expression, in a region. -/

/-- Work that is no application goes on with a value. -/
theorem step_of_ret (rt : Runtime) (hf : f.isApplication = false) (hret : m.control = .ret v)
    (hstack : m.stack = f :: stack) :
    let x := f.resume rt m.depth v (m.heap.hold v)
    m.step rt = after stack m.depth m.log x.2.pins.tail x := by
  obtain ⟨control, frames, depth, h, log⟩ := m
  obtain rfl : control = .ret v := hret
  obtain rfl : frames = f :: stack := hstack
  simp only [step, depthBelow, hf, Bool.false_eq_true, if_false]
  rfl

/-- Work that abandons itself passes the error on and does nothing else. -/
theorem step_of_raise (hunwind : ∀ depth e h, f.unwind rt depth e h = (.raise e, h))
    (hraise : m.control = .raise error) (hstack : m.stack = f :: stack) :
    (m.step rt).control = .raise error ∧ (m.step rt).stack = stack ∧
      SameObjects m.heap (m.step rt).heap := by
  obtain ⟨control, frames, depth, h, log⟩ := m
  obtain rfl : control = .raise error := hraise
  obtain rfl : frames = f :: stack := hstack
  simp only [step, hunwind]
  exact ⟨rfl, rfl, rfl, rfl, rfl⟩

/-- The evaluation of an expression stops, or it comes to a value, with which the work goes on to the
other expressions. -/
theorem Awaits.stops_or_evaluates (hawaits : m.Awaits env stack e f)
    (hunwind : ∀ depth e h, f.unwind rt depth e h = (.raise e, h))
    {P : List Value → Machine → Prop}
    (hrest : ∀ v m₁, Returns rt (f :: stack) m m₁ → m₁.control = .ret v →
      Stops rt env stack es (m₁.step rt) ∨
        ∃ vs m', Evaluates rt env stack es vs (m₁.step rt) m' ∧ P (v :: vs) m') :
    Stops rt env stack (e :: es) m ∨
      ∃ vs m', Evaluates rt env stack (e :: es) vs m m' ∧ P vs m' := by
  by_cases hreturns : ∃ m₁, Returns rt (f :: stack) m m₁
  · obtain ⟨m₁, hreturns⟩ := hreturns
    cases hcontrol : m₁.control with
    | eval e' env' => exact (hreturns.rests.answered e' env' hcontrol).elim
    | raise error =>
      obtain ⟨hraise, hstack, -⟩ := step_of_raise hunwind hcontrol hreturns.rests.stack
      exact .inl (.fails hawaits hreturns hcontrol hraise hstack)
    | ret v =>
      obtain hstops | ⟨vs, m', hvs, hP⟩ := hrest v m₁ hreturns hcontrol
      · exact .inl (.later hawaits hreturns hcontrol hstops)
      · exact .inr ⟨v :: vs, m', .next hawaits hreturns hcontrol hvs, hP⟩
  · exact .inl (.hangs hawaits fun m₁ hm₁ => hreturns ⟨m₁, hm₁⟩)

/-- An expression of the region that comes to a value has edited the region, and the work goes on
from there at the depth it had. -/
theorem Returns.resumes (hrt : rt.Tame K) (hS : h.Region S) (hK : K ⊆ S) (henv : .dict env ∈ S)
    (he : Has S e) (hf : f.isApplication = false) {log : List String} {pins : List (List Value)}
    (hreturns : Returns rt (f :: stack) (after stack depth log pins (.eval e env [f], h)) m₁)
    (hret : m₁.control = .ret v) :
    ∃ T k log pins, Edits (h, S) (k, T) ∧
      m₁.step rt = after stack depth log pins (f.resume rt depth v k) := by
  have hpinned : Edits (h, S) ((after stack depth log pins (.eval e env [f], h)).heap, S) :=
    .single (.hold h.roots _)
  have hinside : (after stack depth log pins (.eval e env [f], h)).Inside K (f :: stack) depth S :=
    ⟨hpinned.region hS, hK, ⟨he, henv⟩, [], rfl, List.forall_mem_nil _,
      by simp [after, proceed, Move.eval, hf]⟩
  obtain ⟨T, hedits, hinside₁⟩ := hinside.returns hrt hreturns
  have hstep := step_of_ret rt hf hret hreturns.rests.stack
  rw [hinside₁.depth_of_rests hreturns.rests] at hstep
  exact ⟨T, m₁.heap.hold v, _, _, (hpinned.trans hedits).trans (edits_hold v), hstep⟩

/-- The evaluation of an expression stops, or it edits the region and comes to a value, with which
the work goes on to the other expressions. -/
theorem stops_or_evaluates (hrt : rt.Tame K) (hS : h.Region S) (hK : K ⊆ S) (henv : .dict env ∈ S)
    (he : Has S e) (hf : f.isApplication = false)
    (hunwind : ∀ depth e h, f.unwind rt depth e h = (.raise e, h)) (log : List String)
    (pins : List (List Value)) {P : List Value → Machine → Prop}
    (hrest : ∀ T k v log pins, Edits (h, S) (k, T) →
      let m := after stack depth log pins (f.resume rt depth v k)
      Stops rt env stack es m ∨ ∃ vs m', Evaluates rt env stack es vs m m' ∧ P (v :: vs) m') :
    let m := after stack depth log pins (.eval e env [f], h)
    Stops rt env stack (e :: es) m ∨
      ∃ vs m', Evaluates rt env stack (e :: es) vs m m' ∧ P vs m' := by
  intro m
  have hawaits : m.Awaits env stack e f := ⟨rfl, rfl⟩
  refine hawaits.stops_or_evaluates hunwind fun v m₁ hreturns hret => ?_
  obtain ⟨T, k, log, pins, hedits, hstep⟩ := hreturns.resumes hrt hS hK henv he hf hret
  rw [hstep]
  exact hrest T k v log pins hedits

end Machine
end DictScript
