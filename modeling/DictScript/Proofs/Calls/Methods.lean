import DictScript.Proofs.Calls.Arguments
import DictScript.Proofs.Calls.Within
import DictScript.Proofs.Frozen.Additions

/-!
Methods. A block that is fetched through a dictionary comes bound to that dictionary, however far up
the chain it was found, and runs with it as `self`.
-/
namespace DictScript
open Heap
variable {rt : Runtime} {e d o frame : DictId} {depth : Nat} {h g k : Heap} {S T K : Set Ref}
variable {v : Value} {args vs xs : List Value} {b : Block} {s : Slots} {l : ListId}
variable {name param : String} {params : List String} {stack : List Frame} {m m₁ m₂ : Machine}
variable {log : List String} {pins base : List (List Value)}

/-! Arguments that are bound, whatever the parameters are called. -/

namespace Heap

theorem Collects.relink {f : DictCell → DictCell} (hc : Collects K S e frame s h)
    (hf : ∀ c, (f c).target = c.target ∧ (f c).slots = c.slots) :
    Collects K S e frame s (h.modifyCell frame f) := by
  have hcell : ∀ c, (h.modifyCell frame f).cell c =
      if c = frame then f (h.cell frame) else h.cell c := fun c => cell_modifyCell hc.made
  have hself := (hcell frame).trans (if_pos rfl)
  have hmade : ∀ r, (h.modifyCell frame f).Allocated r ↔ h.Allocated r :=
    fun r => allocated_modifyCell frame f
  have htidy : (h.modifyCell frame f).Tidy := by
    refine hc.region.tidy.modifyCell hc.made (hf _).1 (fun _ => (hf _).2) fun x hx => ?_
    rw [(hf _).2] at hx
    exact hc.region.tidy.ordinary frame x hx
  refine ⟨hc.region.congr htidy (fun r hr => (hmade r).mpr (hc.region.allocated r hr))
    (fun c hin => ?_) (fun _ _ => rfl) fun _ _ => rfl, hc.host, hc.site, (hmade _).mpr hc.made,
    hc.outside, ?_, ?_⟩
  · rw [hcell, if_neg]
    rintro rfl
    exact hc.outside hin
  · rw [hself, (hf _).1, hc.target]
  · rw [hself, (hf _).2, hc.slots]

/-- Only a parameter with the name of a link can refuse its argument. -/
theorem Collects.bind (hc : Collects K S e frame s h) (name : String) (v : Value) :
    (IsReserved name ∧ ∃ error k, h.define frame name v = (.error error, k)) ∨
    ∃ k s', h.define frame name v = (.ok (), k) ∧ Collects K S e frame s' k ∧
      ∀ n ∈ s'.toList.map Prod.fst, n ∈ s.toList.map Prod.fst ∨ n = canonical name := by
  by_cases hname : IsReserved name
  · generalize hdefine : h.define frame name v = y
    have hlink : ∀ p declared, (.ok (), h.link frame p declared) = y → ∃ k s', y = (.ok (), k) ∧
        Collects K S e frame s' k ∧
          ∀ n ∈ s'.toList.map Prod.fst, n ∈ s.toList.map Prod.fst ∨ n = canonical name :=
      fun p declared hy => ⟨_, s, hy.symm, hc.relink fun _ => ⟨rfl, rfl⟩, fun n => .inl⟩
    have hcaller : ∀ c, (.ok (), h.setCaller frame c) = y → ∃ k s', y = (.ok (), k) ∧
        Collects K S e frame s' k ∧
          ∀ n ∈ s'.toList.map Prod.fst, n ∈ s.toList.map Prod.fst ∨ n = canonical name :=
      fun c hy => ⟨_, s, hy.symm, hc.relink fun _ => ⟨rfl, rfl⟩, fun n => .inl⟩
    unfold Heap.define at hdefine
    split at hdefine
    · rename_i n hn
      exact (hname n hn).elim
    · unfold Heap.setParent at hdefine
      dsimp only at hdefine
      split at hdefine
      · exact .inl ⟨hname, _, _, hdefine.symm⟩
      · exact .inr (hlink _ _ hdefine)
    · exact .inr (hlink none false hdefine)
    · exact .inr (hcaller _ hdefine)
    · exact .inr (hcaller none hdefine)
    · exact .inl ⟨hname, _, _, hdefine.symm⟩
  · obtain ⟨k, hdefine, hk, -, -⟩ := hc.define hname v
    refine .inr ⟨k, _, hdefine, hk, fun n hn => ?_⟩
    exact (mem_map_fst_putSlot.mp hn).symm

end Heap

theorem grown_collectRest (hframe : Makes h k frame) (hk : Grown h k) (e : DictId) (b : Block)
    (param : String) (l : ListId) (args : List Value) :
    Grown h (collectRest rt depth e b frame param l args k).2 := by
  cases args with
  | cons a args => exact hk
  | nil =>
    have hdefine := (hframe.define hk param (.list l)).1
    rw [collectRest]
    generalize k.define frame param (.list l) = x at hdefine ⊢
    obtain ⟨result, k'⟩ := x
    cases result with
    | error error => exact hdefine
    | ok _ => exact hdefine.trans (grown_invoke ..)

/-- Before the first argument is evaluated, a call makes new objects and changes no others. -/
theorem grown_callBlock (rt : Runtime) (depth : Nat) (e : DictId) (b : Block) (args : List Value)
    (h : Heap) : Grown h (callBlock rt depth e b args h).2 := by
  rw [callBlock]
  split
  · exact .of_same rfl rfl
  · have hnew : Grown h (h.frame e e b.name).1 := grown_newDict h _
    have hframe : Makes h (h.frame e e b.name).1 (h.frame e e b.name).2 :=
      { new := Nat.lt_irrefl _
        allocated := (allocated_newDict _).mpr (.inl rfl)
        target := congrArg DictCell.target ((cell_newDict h _).trans (if_pos rfl)) }
    simp only
    unfold bindArgs
    split
    · exact hnew.trans (grown_invoke ..)
    · simp only
      split
      · have hlist := grown_newList (h.frame e e b.name).1 []
        exact grown_collectRest (hframe.grown hlist) (hnew.trans hlist) ..
      · split
        · exact hnew.trans (grown_invoke ..)
        · exact hnew

namespace Machine

def Binds (rt : Runtime) (stack : List Frame) (depth : Nat) (K : Set Ref) (e frame : DictId)
    (b : Block) (names params : List String) (m : Machine) : Prop :=
  (∃ p ∈ params, IsReserved (paramName p) ∧ ∃ error, m.control = .raise error) ∨
  ∃ g T s, m.Invokes rt stack depth e frame b g ∧ Collects K T e frame s g ∧
    ∀ n ∈ s.toList.map Prod.fst, n ∈ names ∨ ∃ p ∈ params, n = canonical (paramName p)

theorem Binds.cons {p : String} {names : List String}
    (hm : m.Binds rt stack depth K e frame b (s.toList.map Prod.fst) params)
    (hs : ∀ n ∈ s.toList.map Prod.fst, n ∈ names ∨ n = canonical (paramName p)) :
    m.Binds rt stack depth K e frame b names (p :: params) := by
  obtain ⟨q, hq, hrefused⟩ | ⟨g, T, s', hinvokes, hc, hnames⟩ := hm
  · exact .inl ⟨q, List.mem_cons_of_mem _ hq, hrefused⟩
  · refine .inr ⟨g, T, s', hinvokes, hc, fun n hn => ?_⟩
    obtain hn | ⟨q, hq, hn⟩ := hnames n hn
    · exact (hs n hn).imp_right fun hn => ⟨p, List.mem_cons_self, hn⟩
    · exact .inr ⟨q, List.mem_cons_of_mem _ hq, hn⟩

theorem Evaluates.collectRest {p : String} (hrt : rt.Tame K) (hc : Collects K S e frame s h)
    (hl : Gathers S l xs h) (hargs : ∀ a ∈ args, Has S a) (hp : paramName p = name)
    (hvs : Evaluates rt e stack args vs
      (after stack depth log pins (collectRest rt depth e b frame name l args h)) m) :
    m.Binds rt stack depth K e frame b (s.toList.map Prod.fst) (p :: params) := by
  induction args generalizing h S xs vs log pins with
  | nil =>
    cases hvs
    rw [DictScript.collectRest]
    obtain ⟨hname, error, k, hdefine⟩ | ⟨k, s', hdefine, hc', hnames⟩ := hc.bind name (.list l)
    · refine .inl ⟨p, List.mem_cons_self, hp ▸ hname, error, ?_⟩
      rw [hdefine]
      rfl
    · refine .inr ⟨k, S, s', ⟨log, pins, by rw [hdefine]⟩, hc', fun n hn => ?_⟩
      exact (hnames n hn).imp_right fun hn => ⟨p, List.mem_cons_self, hp ▸ hn⟩
  | cons a args ih =>
    obtain ⟨ha, hargs⟩ := List.forall_mem_cons.mp hargs
    cases hvs with
    | next hawaits hreturns hret hrest =>
      cases hawaits.frame_eq ⟨rfl, rfl⟩
      obtain ⟨T, k, log, pins, hedits, hstep⟩ :=
        hreturns.resumes hrt hc.region hc.host hc.site ha rfl hret
      obtain ⟨hc', hl'⟩ := (hc.after hedits).pushItem (hl.after hc.region hedits) _
      rw [hstep] at hrest
      exact ih hc' hl' (fun a ha => (hargs a ha).mono hedits.sub) hrest

theorem Evaluates.bindArgs (hrt : rt.Tame K) (hc : Collects K S e frame s h)
    (hargs : ∀ a ∈ args, Has S a)
    (hfits : (∀ p ∈ params, restName? p = none) → args.length ≤ params.length)
    (hvs : Evaluates rt e stack args vs
      (after stack depth log pins (bindArgs rt depth e b frame params args h)) m) :
    m.Binds rt stack depth K e frame b (s.toList.map Prod.fst) params := by
  induction params generalizing args h S s vs log pins with
  | nil =>
    obtain rfl : args = [] := List.length_eq_zero_iff.mp (Nat.le_zero.mp (hfits (List.forall_mem_nil _)))
    cases hvs
    exact .inr ⟨h, S, s, ⟨log, pins, rfl⟩, hc, fun n => .inl⟩
  | cons p params ih =>
    cases hrest : restName? p with
    | some name =>
      rw [bindArgs_rest hrest] at hvs
      obtain ⟨hc', hl⟩ := hc.newList
      exact hvs.collectRest hrt hc' hl hargs (paramName_of_some hrest)
    | none =>
      cases args with
      | nil =>
        rw [bindArgs_nil hrest] at hvs
        cases hvs
        exact .inr ⟨h, S, s, ⟨log, pins, rfl⟩, hc, fun n => .inl⟩
      | cons a args =>
        obtain ⟨ha, hargs⟩ := List.forall_mem_cons.mp hargs
        rw [bindArgs_cons hrest] at hvs
        cases hvs with
        | @next _ w _ _ _ _ _ _ hawaits hreturns hret hnext =>
          cases hawaits.frame_eq ⟨rfl, rfl⟩
          obtain ⟨T, k, log, pins, hedits, hstep⟩ :=
            hreturns.resumes hrt hc.region hc.host hc.site ha rfl hret
          rw [hstep] at hnext
          obtain ⟨hname, error, k', hdefine⟩ | ⟨k', s', hdefine, hc', hnames⟩ :=
            (hc.after hedits).bind p w
          · simp only [Frame.resume, hdefine] at hnext
            have hraise : m.control = .raise error := by
              cases hnext with
              | done => rfl
              | next hawaits => cases hawaits.control
            rw [← paramName_of_none hrest] at hname
            exact .inl ⟨p, List.mem_cons_self, hname, error, hraise⟩
          · simp only [Frame.resume, hdefine] at hnext
            have hfits' : (∀ q ∈ params, restName? q = none) → args.length ≤ params.length :=
              fun hall => Nat.le_of_succ_le_succ (hfits (List.forall_mem_cons.mpr ⟨hrest, hall⟩))
            refine (ih hc' (fun a ha => (hargs a ha).mono hedits.sub) hfits' hnext).cons ?_
            rwa [paramName_of_none hrest]

/-- When the arguments of a call are there, the parameters name what the frame binds. -/
theorem Evaluates.callBlock (hrt : rt.Tame K) (hS : h.Region S) (hK : K ⊆ S) (he : .dict e ∈ S)
    (hargs : ∀ a ∈ args, Has S a)
    (hvs : Evaluates rt e stack args vs
      (after stack depth log pins (callBlock rt depth e b args h)) m) :
    m.Binds rt stack depth K e h.argsFrame b [] b.params := by
  have hfits : ¬ (b.fixedArity < args.length ∧ ¬ b.hasRest) := by
    intro hmany
    rw [DictScript.callBlock, if_pos hmany] at hvs
    cases hvs with
    | done => exact Nat.not_lt_zero _ hmany.1
    | next hawaits => cases hawaits.control
  have hall : (∀ p ∈ b.params, restName? p = none) → args.length ≤ b.params.length := by
    intro hnone
    have hrest : ¬ b.hasRest := by simpa [BlockOf.hasRest] using hnone
    refine (Nat.le_of_not_lt fun hmany => hfits ⟨hmany, hrest⟩).trans ?_
    exact (List.takeWhile_prefix _).length_le
  rw [DictScript.callBlock, if_neg hfits] at hvs
  exact hvs.bindArgs hrt (collects_withArgs hS hK he b) hargs hall

structure RunsMethod (stack : List Frame) (h : Heap) (d : DictId) (name : String) (b : Block)
    (frame : DictId) (m : Machine) : Prop where
  new : ¬ h.Allocated (.dict frame)
  body : ∃ kept, m.control = (Move.body b.body frame [.application frame kept]).control ∧
    m.stack = (Move.body b.body frame [.application frame kept]).frames ++ stack
  self : (m.heap.slots frame).lookup "self" = some (.dict d)
  named : (m.heap.cell frame).name = some name
  lexical : (∀ p ∈ b.params, canonical (paramName p) ≠ envName) →
    m.heap.parent frame = some b.env

/-- The body of a block sees the names of its environment if no parameter brings another one. -/
theorem lexicalScope_of_params {args : DictId}
    (hnames : ∀ n ∈ h.names args, ∃ p ∈ b.params, n = canonical (paramName p))
    (hparams : ∀ p ∈ b.params, canonical (paramName p) ≠ envName) :
    lexicalScope e args b h = (h, b.env) := by
  have hkey : Key.of envName = .slot envName := by decide
  have hnone : (h.slots args).lookup envName = none := by
    rw [← Option.not_isSome_iff_eq_none, lookup_isSome_iff]
    intro hmem
    obtain ⟨p, hp, hn⟩ := hnames _ hmem
    exact hparams p hp hn.symm
  have hget : h.get args envName = .nil := by
    simp only [Heap.get, hkey, hnone, Option.getD_none]
  rw [lexicalScope, hget]

/-- Below the limit the body comes next, in a frame that is new. -/
theorem Invokes.cell_frame (hm : m.Invokes rt stack depth e h.argsFrame b g)
    (hc : Collects K S e h.argsFrame s g) (hdepth : depth < rt.maxDepth) :
    let lexical := (lexicalScope e h.argsFrame b g).2
    ∃ frame, ¬ h.Allocated (.dict frame) ∧
      (∃ kept, m.control = (Move.body b.body frame [.application frame kept]).control ∧
        m.stack = (Move.body b.body frame [.application frame kept]).frames ++ stack) ∧
      m.heap.cell frame = { parent := some lexical, scope := some lexical, caller := some e,
                            name := b.name, slots := bodySlots b s } := by
  obtain ⟨log, pins, rfl⟩ := hm
  have hgrown := (lexicalScope_grows e h.argsFrame b g).1
  rw [invoke_eq hc.slots_eq hc.made hc.target]
  generalize lexicalScope e h.argsFrame b g = x at hgrown
  obtain ⟨h₁, lexical⟩ := x
  have hmade : h.dicts.size < h₁.dicts.size := Nat.lt_of_lt_of_le hc.made hgrown.dicts
  simp only [if_neg (Nat.not_le.mpr hdepth)]
  refine ⟨_, fun hold => Nat.lt_asymm hmade hold, ⟨_, rfl, rfl⟩, ?_⟩
  exact (cell_newDict h₁ _).trans (if_pos rfl)

theorem Invokes.runsMethod (hm : m.Invokes rt stack depth e h.argsFrame b g)
    (hc : Collects K S e h.argsFrame s g)
    (hnames : ∀ n ∈ s.toList.map Prod.fst, ∃ p ∈ b.params, n = canonical (paramName p))
    (hdepth : depth < rt.maxDepth) (hreceiver : b.receiver = some d) (hname : b.name = some name) :
    ∃ frame, m.RunsMethod stack h d name b frame := by
  obtain ⟨frame, hnew, hbody, hcell⟩ := hm.cell_frame hc hdepth
  refine ⟨frame, hnew, hbody, ?_, (congrArg DictCell.name hcell).trans hname, fun hparams => ?_⟩
  · rw [Heap.slots, owner, hcell]
    simp only [Option.getD_none, hcell]
    rw [lookup_bodySlots (by decide), hreceiver, if_pos ⟨rfl, rfl⟩]
    rfl
  · rw [← hc.slots_eq] at hnames
    rw [lexicalScope_of_params hnames hparams] at hcell
    exact parent_of_retained (congrArg DictCell.parent hcell) (congrArg DictCell.scope hcell)

/-! Fetching a method. -/

theorem pins_field (d : DictId) (name : String) (e : DictId) (h : Heap) :
    (field d name e h).2.pins = h.pins := by
  unfold field
  split
  · rfl
  · split <;> rfl

/-- After three steps the name is looked up in `d`, in a heap in which nothing is different. -/
theorem Regular.run_field (hm : m.Regular K base) (hret : m.control = .ret (.dict d))
    (hstack : m.stack = .operator [.quote (.sym name)] e :: stack) (rt : Runtime) :
    ∃ k below, (m.heap.hold (.dict d)).Enlarged k ∧
      m.run rt 3 = after stack m.depth m.log below (field d name e k) := by
  let h := m.heap.hold (.dict d)
  let below := stack.map Frame.held ++ base
  have hh : h.Complete := hm.complete_callee hret
  have hworks : m.result? = none := by
    unfold result?
    rw [hret, hstack]
  refine ⟨h.entered d e [.sym name] below, below,
    hh.enlarged_entered (hm.pins_callee d hstack) (fun r hr => ?_) ?_, ?_⟩
  · simp [Value.refs] at hr
  · simp [Value.refs]
  · rw [run, hworks]
    simp only
    rw [hm.step_callee hret hstack rt]
    exact run_quote 0 (f := .within e d (h.within d e).2) rfl (pins_field d name e _)

theorem Regular.method_found (hm : m.Regular K base) (hret : m.control = .ret (.dict d))
    (hstack : m.stack = .operator [.quote (.sym name)] e :: stack) (rt : Runtime)
    (hvisits : (m.heap.hold (.dict d)).Visits name d o)
    (hholds : (m.heap.hold (.dict d)).holds o name = true)
    (hget : (m.heap.hold (.dict d)).get o name = .block b) :
    ∃ id, (m.run rt 3).control =
        .ret (.block { b with id := id, name := some name, receiver := some d }) ∧
      (m.run rt 3).stack = stack ∧ (m.run rt 3).depth = m.depth ∧
      ∀ c, (m.heap.hold (.dict d)).Allocated (.dict c) →
        (m.run rt 3).heap.Allocated (.dict c) ∧
          (m.run rt 3).heap.cell c = (m.heap.hold (.dict d)).cell c := by
  have hh := hm.complete_callee hret
  have hd : (m.heap.hold (.dict d)).Allocated (.dict d) :=
    hh.held _ ((heldRefs_callee (hm.pins_callee d hstack)).mpr (.inr (.inl rfl)))
  obtain ⟨k, below, hk, hrun⟩ := hm.run_field hret hstack rt
  have hfind : k.find d name = some o := by
    rw [hk.find hh hd]
    exact find_eq_some_iff.mpr ⟨hvisits, hholds⟩
  have hblock : k.get o name = .block b := by
    rw [hk.get hh (allocated_of_holds hholds), hget]
  have hfield : field d name e k =
      (.ret (.block { b with id := k.blocks, name := some name, receiver := some d }),
        { k with blocks := k.blocks + 1 }) := by
    rw [field, hfind]
    simp only [hblock]
    rfl
  rw [hrun, hfield]
  exact ⟨k.blocks, rfl, rfl, rfl, fun c hc => ⟨hk.allocated hc, hk.cell hc⟩⟩

theorem Regular.method_missing (hm : m.Regular K base) (hret : m.control = .ret (.dict d))
    (hstack : m.stack = .operator [.quote (.sym name)] e :: stack) (rt : Runtime)
    (hnone : (m.heap.hold (.dict d)).find d name = none) :
    ∃ error suggestion, (m.run rt 3).control = .raise error ∧ (m.run rt 3).stack = stack ∧
      error.cause = .unbound name suggestion := by
  have hh := hm.complete_callee hret
  have hd : (m.heap.hold (.dict d)).Allocated (.dict d) :=
    hh.held _ ((heldRefs_callee (hm.pins_callee d hstack)).mpr (.inr (.inl rfl)))
  obtain ⟨k, below, hk, hrun⟩ := hm.run_field hret hstack rt
  rw [hrun, field, hk.find hh hd, hnone]
  exact ⟨_, _, rfl, rfl, cause_raisedIn _ _ _⟩

/-- A name that is looked up in an object `d` leads to the nearest holder on its chain. If that
holds a block, a copy comes back that is bound to `d`, while the block stays where it is. Called with
arguments that bind, it runs its body in a new frame whose `self` is `d`, whatever the arguments are,
and which sees the names of the block's own environment unless a parameter is called `env`. If nobody
on the chain holds the name it is unbound, wherever else it may be bound. -/
theorem method_called (hrt : rt.Tame K) (hm : m.Regular K base) (hname : Ordinary name)
    (hret : m.control = .ret (.dict d))
    (hstack : m.stack = .operator [.quote (.sym name)] e :: stack) :
    let h := m.heap.hold (.dict d)
    let m₁ := m.run rt 3
    (∀ o b, h.Visits name d o → h.holds o name = true → h.get o name = .block b →
      (∃ id, m₁.control = .ret (.block { b with id := id, name := some name, receiver := some d }) ∧
        m₁.stack = stack) ∧ m₁.heap.get o name = .block b ∧
      (∀ c, h.Allocated (.dict c) → m₁.heap.cell c = h.cell c) ∧
      ∀ args site below, stack = .operator args site :: below →
        (∀ c, h.Allocated (.dict c) → (m₁.step rt).heap.cell c = h.cell c) ∧
        (m.depth < rt.maxDepth → ∀ vs m₂, Evaluates rt site below args vs (m₁.step rt) m₂ →
          (∃ p ∈ b.params, IsReserved (paramName p) ∧ ∃ error, m₂.control = .raise error) ∨
          ∃ frame, m₂.RunsMethod below m₁.heap d name b frame)) ∧
    ((∀ x, Relation.ReflTransGen h.Inherits d x → h.holds x name = false) →
      ∃ error suggestion, m₁.control = .raise error ∧ m₁.stack = stack ∧
        error.cause = .unbound name suggestion) := by
  intro h m₁
  refine ⟨fun o b hvisits hholds hget => ?_,
    fun hnone => hm.method_missing hret hstack rt (find_eq_none_iff.mpr hnone)⟩
  obtain ⟨id, hcontrol, hstack₁, hdepth₁, hcells⟩ :=
    hm.method_found hret hstack rt hvisits hholds hget
  have hh := hm.complete_callee hret
  have hmade := allocated_of_holds hholds
  have hslots : m₁.heap.slots o = h.slots o :=
    slots_congr (hcells o hmade).2 (hcells _ (hh.owner hmade)).2
  refine ⟨⟨id, hcontrol, hstack₁⟩, ?_, fun c hc => (hcells c hc).2, fun args site below hbelow => ?_⟩
  · rw [← hget]
    simp only [Heap.get, hname.1, hslots]
  obtain ⟨T, -, hinside⟩ := hm.inside.run hrt 3
  have hstack₂ : m₁.stack = .operator args site :: below := hstack₁.trans hbelow
  have hstep := step_of_ret rt (f := .operator args site) rfl hcontrol hstack₂
  generalize hbound : ({ b with id := id, name := some name, receiver := some d } : Block) = bound
    at hcontrol hstep
  have hsame : ∀ c, (m₁.heap.hold (.block bound)).Allocated (.dict c) ↔
      m₁.heap.Allocated (.dict c) := fun c => by simp [Allocated]
  refine ⟨fun c hc => ?_, fun hdepth vs m₂ hvs => ?_⟩
  · obtain ⟨hmade, hcell⟩ := hcells c hc
    rw [← hcell, hstep]
    exact ((grown_callBlock rt m₁.depth site bound args _).cell c ((hsame c).mpr hmade) (by simp)).trans
      (cell_congr (dicts_hold _ _))
  · obtain ⟨above, habove, hframes, -⟩ := hinside.above
    have hheld : ∀ v ∈ Value.dict site :: args, Has T v := by
      refine (hframes (.operator args site) ?_).held
      rw [List.append_nil] at habove
      rw [← habove, hstack₂]
      exact List.mem_cons_self
    obtain ⟨hsite, hargs⟩ := List.forall_mem_cons.mp hheld
    rw [hstep] at hvs
    obtain ⟨p, hp, hrefused⟩ | ⟨g, T', s, hinvokes, hc, hnames⟩ :=
      hvs.callBlock hrt ((edits_hold _).region hinside.region) hinside.host (has_dict.mp hsite) hargs
    · subst hbound
      exact .inl ⟨p, hp, hrefused⟩
    · obtain ⟨frame, hruns⟩ := hinvokes.runsMethod hc
        (fun n hn => (hnames n hn).resolve_left List.not_mem_nil) (hdepth₁ ▸ hdepth)
        (by rw [← hbound]) (by rw [← hbound])
      subst hbound
      exact .inr ⟨frame, fun hold => hruns.new ((hsame frame).mpr hold), hruns.body, hruns.self,
        hruns.named, hruns.lexical⟩

/-- The method that a parent has gets its own object for `self`, though a parameter of that name is
given nil. -/
theorem itself_called :
    let rt := (Interpreter.standard 100).runtime
    ∃ m frame, Evaluates rt ⟨0⟩ [] [.quote .nil] [.nil] ((asking.run rt 3).step rt) m ∧
      (m.heap.slots frame).lookup "self" = some (.dict ⟨2⟩) ∧
      (m.heap.cell frame).name = some "m" ∧ m.heap.parent frame = some ⟨0⟩ := by
  intro rt
  have hname : Ordinary "m" := ⟨rfl, by decide⟩
  have hparent : (asking.heap.hold (.dict ⟨2⟩)).Inherits ⟨2⟩ ⟨1⟩ := by rfl
  have hvisits : (asking.heap.hold (.dict ⟨2⟩)).Visits "m" ⟨2⟩ ⟨1⟩ := .single ⟨rfl, hparent⟩
  obtain ⟨hfound, -⟩ := method_called (Interpreter.tame_runtime 100) regular_asking hname rfl rfl
  obtain ⟨-, -, -, hcall⟩ := hfound ⟨1⟩ Block.itself hvisits rfl rfl
  obtain ⟨-, hruns⟩ := hcall [.quote .nil] ⟨0⟩ [] rfl
  have hawaits : ∃ f, ((asking.run rt 3).step rt).Awaits ⟨0⟩ [] (.quote .nil) f := ⟨_, rfl, rfl⟩
  obtain ⟨f, hawaits⟩ := hawaits
  obtain ⟨m₁, hreturns, hret, -⟩ := hawaits.returns_quote rt
  have hvs : Evaluates rt ⟨0⟩ [] [.quote .nil] [.nil] ((asking.run rt 3).step rt) (m₁.step rt) :=
    .next hawaits hreturns hret .done
  obtain ⟨p, hp, hreserved, -⟩ | ⟨frame, hmethod⟩ := hruns (by decide) _ _ hvs
  · obtain rfl := List.mem_singleton.mp hp
    exact (hreserved "self" (by decide)).elim
  · refine ⟨_, frame, hvs, hmethod.self, hmethod.named, hmethod.lexical ?_⟩
    intro p hp
    obtain rfl := List.mem_singleton.mp hp
    decide

end Machine
end DictScript
