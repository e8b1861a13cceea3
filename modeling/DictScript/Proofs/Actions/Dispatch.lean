import DictScript.Proofs.Actions.Balance
import DictScript.Proofs.Graph

/-!
What a call comes to: first its arguments, each evaluated once on the caller's stack, then the
definitions, each run once if the frame has what it asks for when its turn comes.
-/
namespace DictScript.Action
variable {C α β : Type} {w w' : World C} {fuel fuel' : Nat} {s : FrameStack} {frame source : DictId}

theorem mapError_inj {r r' : Except RuntimeError α} :
    r.mapError Halt.error = r'.mapError Halt.error ↔ r = r' := by
  cases r <;> cases r' <;> simp [Except.mapError]

theorem mapError_eq_error {r : Except RuntimeError α} {halt : Halt} :
    r.mapError Halt.error = .error halt ↔ ∃ e, halt = .error e ∧ r = .error e := by
  cases r <;> simp [Except.mapError, eq_comm]

/-! More fuel changes nothing for an evaluation that ends. -/

def Below (x y : Except Halt α × World C) : Prop := x.1 = .error .outOfFuel ∨ y = x

theorem Below.onward {x y : Except Halt α × World C} {f g : α → World C → Except Halt β × World C}
    (hx : Below x y) (hf : ∀ a w, Below (f a w) (g a w)) : Below (onward f x) (onward g y) := by
  obtain ⟨r, w₁⟩ := x
  rcases hx with h | rfl
  · subst h
    exact .inl rfl
  · rcases r with e | a
    · exact .inr rfl
    · exact hf a w₁

theorem Below.map {x y : Except Halt α × World C} (leave : World C → World C) (hx : Below x y) :
    Below (x.map id leave) (y.map id leave) :=
  hx.imp_right (congrArg _)

def Stable (outcome : Nat → Except Halt α × World C) : Prop :=
  ∀ fuel, Below (outcome fuel) (outcome (fuel + 1))

theorem Stable.eq_of_le {outcome : Nat → Except Halt α × World C} {r : Except RuntimeError α}
    (hs : Stable outcome) (h : outcome fuel = (r.mapError Halt.error, w')) (hle : fuel ≤ fuel') :
    outcome fuel' = (r.mapError Halt.error, w') := by
  induction hle with
  | refl => exact h
  | step _ ih =>
    refine ((hs _).resolve_left ?_).trans ih
    rw [ih]
    cases r <;> simp [Except.mapError]

theorem Plan.below_run
    (ht : ∀ {β : Type} (u : Task C β) (v : World C),
      Below ((u.run fuel).run v) ((u.run (fuel + 1)).run v)) (p : Plan C α) :
    Below (p.run fuel) (p.run (fuel + 1)) := by
  induction p with
  | done r w => exact .inr rfl
  | start u w leave next ih => exact ((ht u w).map leave).onward ih

theorem Task.stable (t : Task C α) (w : World C) : Stable fun fuel => (t.run fuel).run w := by
  intro fuel
  show Below ((t.run fuel).run w) ((t.run (fuel + 1)).run w)
  induction fuel generalizing α w with
  | zero =>
    rw [t.run_zero]
    exact .inl rfl
  | succ fuel ih =>
    rw [t.run_succ, t.run_succ]
    exact Plan.below_run ih _

theorem Plan.stable (p : Plan C α) : Stable fun fuel => p.run fuel :=
  fun fuel => p.below_run fun u v => u.stable v fuel

def Task.Ends (t : Task C α) (w : World C) (r : Except RuntimeError α) (w' : World C) : Prop :=
  ∃ fuel, (t.run fuel).run w = (r.mapError Halt.error, w')

theorem Task.Ends.balanced {t : Task C α} {r : Except RuntimeError α} (h : t.Ends w r w') :
    w.Balanced w' := by
  obtain ⟨fuel, h⟩ := h
  have hb := (balance C).run fuel (t := t) (w := w) trivial
  rwa [h] at hb

namespace Plan

def Ends (p : Plan C α) (r : Except RuntimeError α) (w' : World C) : Prop :=
  ∃ fuel, p.run fuel = (r.mapError Halt.error, w')

variable {r r₀ : Except RuntimeError α} {u : Task C β} {v : Task C α} {leave : World C → World C}
  {next : β → World C → Plan C α}

theorem ends_done_iff : (done r₀ w).Ends r w' ↔ r = r₀ ∧ w' = w := by
  simp [Ends, run, mapError_inj, eq_comm]

theorem ends_start_iff : (start u w leave next).Ends r w' ↔
    (∃ e w₁, u.Ends w (.error e) w₁ ∧ r = .error e ∧ w' = leave w₁) ∨
      ∃ b w₁, u.Ends w (.ok b) w₁ ∧ (next b (leave w₁)).Ends r w' := by
  constructor
  · rintro ⟨fuel, h⟩
    rw [run_start] at h
    rcases hu : (u.run fuel).run w with ⟨halt | b, w₁⟩ <;> rw [hu] at h
    · obtain ⟨hr, rfl⟩ := Prod.mk.inj h
      obtain ⟨e, rfl, rfl⟩ := mapError_eq_error.mp hr.symm
      exact .inl ⟨e, w₁, ⟨fuel, hu⟩, rfl, rfl⟩
    · exact .inr ⟨b, w₁, ⟨fuel, hu⟩, fuel, h⟩
  · rintro (⟨e, w₁, ⟨fuel, hu⟩, rfl, rfl⟩ | ⟨b, w₁, ⟨fuel₁, hu⟩, fuel₂, hn⟩)
    · exact ⟨fuel, by rw [run_start, hu]; rfl⟩
    · refine ⟨max fuel₁ fuel₂, ?_⟩
      rw [run_start, (u.stable w).eq_of_le hu (Nat.le_max_left ..)]
      exact (next b (leave w₁)).stable.eq_of_le hn (Nat.le_max_right ..)

theorem ends_start_answer_iff : (start v w id answer).Ends r w' ↔ v.Ends w r w' := by
  simp [Ends, Task.Ends]

end Plan

/-- A piece ends as its plan does. -/
theorem Task.ends_iff {t : Task C α} {r : Except RuntimeError α} :
    t.Ends w r w' ↔ (t.plan w).Ends r w' := by
  constructor
  · rintro ⟨fuel, h⟩
    exact ⟨fuel, (t.run_succ fuel w).symm.trans ((t.stable w).eq_of_le h (Nat.le_succ fuel))⟩
  · rintro ⟨fuel, h⟩
    exact ⟨fuel + 1, (t.run_succ fuel w).trans h⟩

/-! The arguments. -/

/-- Evaluates what `source` has under the names, each once and in their order, into the slots of the
frame. Each is evaluated on the stack `s`; one that fails is the last. -/
inductive Fills (s : FrameStack) (frame source : DictId) :
    List String → World C → Except RuntimeError Unit → World C → Prop where
  | done {w : World C} : Fills s frame source [] w (.ok ()) w
  | bound {name : String} {names : List String} {w w₁ w' : World C} {v : Value}
      {r : Except RuntimeError Unit} (hs : w.stack = s)
      (hv : (Task.eval (w.heap.get source name)).Ends w (.ok v) w₁)
      (hr : Fills s frame source names (w₁.bound frame name v) r w') :
      Fills s frame source (name :: names) w r w'
  | failed {name : String} {names : List String} {w w' : World C} {e : RuntimeError}
      (hs : w.stack = s) (he : (Task.eval (w.heap.get source name)).Ends w (.error e) w') :
      Fills s frame source (name :: names) w (.error e) w'

theorem ends_slots_iff {names : List String} {r : Except RuntimeError Unit} :
    (Task.slots frame source names).Ends w r w' ↔ Fills w.stack frame source names w r w' := by
  induction names generalizing w with
  | nil =>
    rw [Task.ends_iff, Task.plan, Plan.answer, Plan.ends_done_iff]
    constructor
    · rintro ⟨rfl, rfl⟩
      exact .done
    · rintro ⟨⟩
      exact ⟨rfl, rfl⟩
  | cons name names ih =>
    rw [Task.ends_iff, Task.plan, Plan.ends_start_iff]
    simp only [Plan.ends_start_answer_iff, ih, id]
    constructor
    · rintro (⟨e, _, he, rfl, rfl⟩ | ⟨v, w₁, hv, hr⟩)
      · exact .failed rfl he
      · exact .bound rfl hv (hv.balanced.stack ▸ hr)
    · rintro (⟨⟩ | ⟨hs, hv, hr⟩ | ⟨hs, he⟩)
      · exact .inr ⟨_, _, hv, hv.balanced.stack ▸ hr⟩
      · exact .inl ⟨_, _, he, rfl, rfl⟩

/-! The definitions. -/

structure Turn (C : Type) where
  definition : Definition C
  before : World C
  result : Except RuntimeError Value

/-- Goes through the definitions in their order. One whose names the frame holds when its turn comes
is run, once; the others are passed over. One that fails is the last. -/
inductive Dispatches (frame : DictId) :
    List (Definition C) → World C → List (Turn C) → World C → Prop where
  | done {w : World C} : Dispatches frame [] w [] w
  | skipped {d : Definition C} {ds : List (Definition C)} {w w' : World C} {ran : List (Turn C)}
      (hd : ∃ name ∈ d.required, w.heap.holds frame name = false)
      (hr : Dispatches frame ds w ran w') : Dispatches frame (d :: ds) w ran w'
  | ran {d : Definition C} {ds : List (Definition C)} {w w₁ w' : World C} {v : Value}
      {ran : List (Turn C)} (hd : ∀ name ∈ d.required, w.heap.holds frame name = true)
      (hv : (Task.implement frame d.implementation).Ends w (.ok v) w₁)
      (hr : Dispatches frame ds w₁ ran w') : Dispatches frame (d :: ds) w (⟨d, w, .ok v⟩ :: ran) w'
  | failed {d : Definition C} {ds : List (Definition C)} {w w' : World C} {e : RuntimeError}
      (hd : ∀ name ∈ d.required, w.heap.holds frame name = true)
      (he : (Task.implement frame d.implementation).Ends w (.error e) w') :
      Dispatches frame (d :: ds) w [⟨d, w, .error e⟩] w'

def answer (last : Value) (ran : List (Turn C)) : Except RuntimeError Value :=
  (ran.getLast?.map Turn.result).getD (.ok last)

theorem answer_cons (last v : Value) (d : Definition C) (w : World C) (ran : List (Turn C)) :
    answer last (⟨d, w, .ok v⟩ :: ran) = answer v ran := by
  rw [answer, answer, List.getLast?_cons]
  cases ran.getLast? <;> rfl

theorem accepts_iff {d : Definition C} {h : Heap} :
    d.accepts h frame = true ↔ ∀ name ∈ d.required, h.holds frame name = true :=
  List.all_eq_true

theorem ends_dispatch_iff {ds : List (Definition C)} {last : Value}
    {r : Except RuntimeError Value} :
    (Task.dispatch frame last ds).Ends w r w' ↔
      ∃ ran, Dispatches frame ds w ran w' ∧ r = answer last ran := by
  induction ds generalizing w last with
  | nil =>
    rw [Task.ends_iff, Task.plan, Plan.answer, Plan.ends_done_iff]
    constructor
    · rintro ⟨rfl, rfl⟩
      exact ⟨[], .done, rfl⟩
    · rintro ⟨ran, ⟨⟩, rfl⟩
      exact ⟨rfl, rfl⟩
  | cons d ds ih =>
    rw [Task.ends_iff, Task.plan]
    split
    · next hd =>
      have hall := accepts_iff.mp hd
      rw [Plan.ends_start_iff]
      simp only [Plan.ends_start_answer_iff, ih, id]
      constructor
      · rintro (⟨e, _, he, rfl, rfl⟩ | ⟨v, w₁, hv, ran, hran, rfl⟩)
        · exact ⟨_, .failed hall he, rfl⟩
        · exact ⟨_, .ran hall hv hran, (answer_cons ..).symm⟩
      · rintro ⟨ran, (_ | ⟨⟨name, hmem, hno⟩, -⟩ | ⟨-, hv, hr⟩ | ⟨-, he⟩), rfl⟩
        · exact absurd (hall name hmem) (by simp [hno])
        · exact .inr ⟨_, _, hv, _, hr, answer_cons ..⟩
        · exact .inl ⟨_, _, he, rfl, rfl⟩
    · next hd =>
      have hno : ∃ name ∈ d.required, w.heap.holds frame name = false := by
        simpa [Definition.accepts] using hd
      rw [Plan.ends_start_answer_iff, ih]
      refine exists_congr fun ran => and_congr_left fun _ => ⟨.skipped hno, ?_⟩
      rintro (_ | ⟨-, h⟩ | ⟨hall, -, -⟩ | ⟨hall, -⟩)
      · exact h
      all_goals exact absurd (accepts_iff.mpr hall) hd

/-- By the time a definition runs, the stack is the caller's again and nothing is unregistered. -/
theorem Dispatches.balanced {ds : List (Definition C)} {ran : List (Turn C)}
    (h : Dispatches frame ds w ran w') : w.Balanced w' ∧ ∀ t ∈ ran, w.Balanced t.before := by
  induction h with
  | done => exact ⟨.refl _, by simp⟩
  | skipped hd hr ih => exact ih
  | ran hd hv hr ih =>
    refine ⟨hv.balanced.trans ih.1, List.forall_mem_cons.mpr ⟨.refl _, fun t ht => ?_⟩⟩
    exact hv.balanced.trans (ih.2 t ht)
  | failed hd he => exact ⟨he.balanced, by simpa using .refl _⟩

/-- A call ends just so: its arguments fill a new frame, which is on no stack meanwhile, and nothing
else runs if one of them fails. Otherwise the definitions that the name has by then get their turns
on that frame, and the last turn is the answer. What is registered meanwhile comes behind these
definitions and is there for every call that starts later, a nested one too. -/
theorem ends_call_iff (name : String) (args : DictId) (r : Except RuntimeError Value)
    (w w' : World C) :
    ((∀ d ∈ w.stack.frames, w.heap.Allocated (.dict d)) → w.nextFrame ∉ w.stack.frames) ∧
    ((Task.call name args).Ends w r w' ↔
      (∃ e, Fills w.stack w.nextFrame args (w.opened.heap.names args) w.opened (.error e) w' ∧
        r = .error e) ∨
      ∃ w₁ ran, Fills w.stack w.nextFrame args (w.opened.heap.names args) w.opened (.ok ()) w₁ ∧
        Dispatches w.nextFrame (w₁.registry.definitions name) w₁ ran w' ∧
        w.Balanced w₁ ∧ (∀ t ∈ ran, w₁.Balanced t.before) ∧ w₁.Balanced w' ∧
        r = answer .nil ran) := by
  refine ⟨fun hs hmem => Nat.lt_irrefl _ (hs _ hmem), ?_⟩
  rw [Task.ends_iff, Task.plan, Plan.ends_start_iff]
  simp only [Plan.ends_start_answer_iff, ends_slots_iff, ends_dispatch_iff, id]
  have hopen := World.balanced_opened w
  constructor
  · rintro (⟨e, _, he, rfl, rfl⟩ | ⟨⟨⟩, w₁, hfill, ran, hran, rfl⟩)
    · exact .inl ⟨e, he, rfl⟩
    · have hb := hopen.trans (ends_slots_iff.mpr hfill).balanced
      exact .inr ⟨w₁, ran, hfill, hran, hb, hran.balanced.2, hran.balanced.1, rfl⟩
  · rintro (⟨e, he, rfl⟩ | ⟨w₁, ran, hfill, hran, -, -, -, rfl⟩)
    · exact .inl ⟨e, w', he, rfl, rfl⟩
    · exact .inr ⟨(), w₁, hfill, ran, hran, rfl⟩

end DictScript.Action
