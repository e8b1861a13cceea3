import DictScript.Proofs.Frozen.Accepts
import DictScript.Proofs.Frozen.Freeze

/-!
Streams that the grammar does not derive are malformed, and no fuel beyond what a thaw has makes a
difference. Two runs with fuel enough are compared, so that both come out of one induction.
-/
namespace DictScript
open Heap

namespace Thaw
variable {α β : Type} {t t' : Thawer} {T T' : List Opened} {g : Given} {v : Value}

def Ends (x y : Thaw α) (t : Thawer) (Q : α → Thawer → Prop) : Prop :=
  y.run.run t = x.run.run t ∧
    match x.run.run t with
    | (.ok a, t') => Q a t'
    | (.error e, _) => ∃ why, e = .malformed why

theorem Ends.bind {x y : Thaw α} {f e : α → Thaw β} {P : α → Thawer → Prop}
    {Q : β → Thawer → Prop} (hx : Ends x y t P)
    (hf : ∀ a t', P a t' → Ends (f a) (e a) t' Q) : Ends (x >>= f) (y >>= e) t Q := by
  obtain ⟨hsame, hx⟩ := hx
  simp only [Ends, ExceptT.run_bind, StateT.run_bind, hsame]
  generalize x.run.run t = z at hx ⊢
  obtain ⟨result, t'⟩ := z
  cases result with
  | error e => exact ⟨rfl, hx⟩
  | ok a => exact hf a t' hx

theorem Ends.of_gives {x : Thaw α} {a : α} {Q : α → Thawer → Prop} (hx : Gives x t a t')
    (hQ : Q a t') : Ends x x t Q := by
  refine ⟨rfl, ?_⟩
  rw [hx]
  exact hQ

theorem Ends.of_gives_bind {x : Thaw α} {f e : α → Thaw β} {a : α} {Q : β → Thawer → Prop}
    (hx : Gives x t a t') (hf : Ends (f a) (e a) t' Q) : Ends (x >>= f) (x >>= e) t Q := by
  refine Ends.bind (P := fun b t₁ => b = a ∧ t₁ = t') (.of_gives hx ⟨rfl, rfl⟩) ?_
  rintro b t₁ ⟨rfl, rfl⟩
  exact hf

theorem Ends.mono {x y : Thaw α} {P Q : α → Thawer → Prop} (hx : Ends x y t P)
    (hPQ : ∀ a t', P a t' → Q a t') : Ends x y t Q := by
  obtain ⟨hsame, hx⟩ := hx
  refine ⟨hsame, ?_⟩
  generalize x.run.run t = z at hx ⊢
  obtain ⟨result, t'⟩ := z
  cases result with
  | error e => exact hx
  | ok a => exact hPQ a t' hx

theorem ends_fail (why : Malformed) {Q : α → Thawer → Prop} : Ends (fail why) (fail why) t Q :=
  ⟨rfl, why, rfl⟩

theorem ends_next {f e : Token → Thaw β} {Q : β → Thawer → Prop}
    (hf : ∀ tok rest, t.rest = tok :: rest → Ends (f tok) (e tok) { t with rest := rest } Q) :
    Ends (next >>= f) (next >>= e) t Q := by
  cases ht : t.rest with
  | nil =>
    refine Ends.bind (P := fun _ _ => False) ?_ fun _ _ => False.elim
    refine .of_gives_bind (gives_get t) ?_
    simp only [ht]
    exact ends_fail _
  | cons tok rest => exact .of_gives_bind (gives_next ht) (hf tok rest ht)

theorem ends_close {m : Mark} {f e : Bool → Thaw β} {Q : β → Thawer → Prop}
    (htrue : ∀ rest, t.rest = .mark m :: rest → Ends (f true) (e true) { t with rest := rest } Q)
    (hfalse : ∀ tok rest, t.rest = tok :: rest → tok ≠ .mark m → Ends (f false) (e false) t Q) :
    Ends (close m >>= f) (close m >>= e) t Q := by
  cases ht : t.rest with
  | nil =>
    refine Ends.bind (P := fun _ _ => False) ?_ fun _ _ => False.elim
    refine .of_gives_bind (gives_get t) ?_
    simp only [ht]
    exact ends_fail _
  | cons tok rest =>
    by_cases htok : tok = .mark m
    · subst htok
      exact .of_gives_bind (gives_close ht) (htrue rest ht)
    · exact .of_gives_bind (gives_close_false ht htok) (hfalse tok rest ht htok)

/-! The parts of a block. -/

theorem ends_blockName (t : Thawer) : Ends blockName blockName t fun _ t' => ∃ tok rest,
    t.rest = tok :: rest ∧ (tok = .null ∨ ∃ text, tok = .str text) ∧
      t' = { t with rest := rest } := by
  refine ends_next fun tok rest ht => ?_
  cases tok with
  | null => exact .of_gives (gives_pure _ _) ⟨_, rest, ht, .inl rfl, rfl⟩
  | str text => exact .of_gives (gives_pure _ _) ⟨_, rest, ht, .inr ⟨text, rfl⟩, rfl⟩
  | _ => exact ends_fail _

theorem all_isSome_of_mapM {vs : List Value} {names : List String}
    (hvs : vs.mapM Value.sym? = some names) : (vs.all fun v => v.sym?.isSome) = true := by
  induction vs generalizing names with
  | nil => rfl
  | cons v vs ih =>
    rw [List.mapM_cons] at hvs
    obtain ⟨n, hn, hrest⟩ := Option.bind_eq_some_iff.mp hvs
    obtain ⟨ns, hns, -⟩ := Option.bind_eq_some_iff.mp hrest
    rw [List.all_cons, hn, ih hns]
    rfl

theorem Given.Of.eq_list {table : Array Value} {l : ListId} (hv : g.Of table (.list l)) :
    ∃ i, g = .list i ∧ table[i]? = some (.list l) := by
  cases g with
  | list i => exact ⟨i, rfl, hv⟩
  | _ => exact hv.elim

theorem ends_paramNames (hm : Models t T) (hv : g.Of t.table v) :
    Ends (paramNames v) (paramNames v) t fun _ t' => t' = t ∧
      ∃ i, g = .list i ∧ T[i]? = some (.list true) := by
  refine .of_gives_bind (gives_get t) ?_
  cases v with
  | list l =>
    obtain ⟨i, rfl, hi⟩ := Given.Of.eq_list hv
    obtain ⟨o, ho, his⟩ := hm.exists_opened hi
    obtain ⟨rfl, -⟩ := his.eq_list
    cases hparams : (t.heap.items l).mapM Value.sym? with
    | none =>
      simp only [hparams]
      exact ends_fail _
    | some params =>
      simp only [hparams]
      rw [all_isSome_of_mapM hparams] at ho
      exact .of_gives (gives_pure _ _) ⟨rfl, i, rfl, ho⟩
  | _ => exact ends_fail _

theorem ends_blockEnv (scope : Option DictId) (hv : g.Of t.table v) :
    Ends (blockEnv scope v) (blockEnv scope v) t fun _ t' => (g = .dict ∨ g = .nil) ∧
      t'.rest = t.rest ∧ t'.table = t.table ∧ Grown t.heap t'.heap := by
  have hgives : g = .dict ∨ g = .nil → Ends (blockEnv scope v) (blockEnv scope v) t
      fun _ t' => (g = .dict ∨ g = .nil) ∧ t'.rest = t.rest ∧ t'.table = t.table ∧
        Grown t.heap t'.heap := by
    intro hg
    obtain ⟨d, t', hrun, hrest, htable, hgrown, -⟩ := exists_gives_blockEnv scope false t hv hg
    exact .of_gives hrun ⟨hg, hrest, htable, hgrown⟩
  cases v with
  | dict d =>
    refine hgives (.inl ?_)
    cases g <;> first | rfl | exact hv.elim
  | nil =>
    refine hgives (.inr ?_)
    cases g <;> first | rfl | exact hv.elim
  | _ => exact .of_gives_bind (gives_get t) (ends_fail _)

theorem ends_blockBody (hv : g.Of t.table v) :
    Ends (blockBody v) (blockBody v) t fun _ t' => t' = t ∧ ∃ i, g = .list i := by
  refine .of_gives_bind (gives_get t) ?_
  cases v with
  | list l =>
    obtain ⟨i, rfl, -⟩ := Given.Of.eq_list hv
    exact .of_gives (gives_pure _ _) ⟨rfl, i, rfl⟩
  | _ => exact ends_fail _

/-! Whole streams. -/

section
variable {registry : Registry} {scope : Option DictId} {fuel : Nat}

def Derived (T : List Opened) (t : Thawer) (tokens : List Token) (v : Value) (t' : Thawer) : Prop :=
  ∃ g ts T', Derives T (.value g) ts T' ∧ tokens = ts ++ t'.rest ∧ Passed t t' T' t'.rest ∧
    g.Of t'.table v

def EndsValue (registry : Registry) (scope : Option DictId) (fuel : Nat) : Prop :=
  ∀ fuel' inert t T st, 2 * t.rest.length + 1 ≤ fuel → 2 * t.rest.length + 1 ≤ fuel' →
    Models t T → Unreserved (keys (.value :: st) t.rest) →
    Ends (value registry scope fuel inert) (value registry scope fuel' inert) t
      (Derived T t t.rest)

def EndsItems (registry : Registry) (scope : Option DictId) (fuel : Nat) : Prop :=
  ∀ fuel' inert t T st (i : Nat) (l : ListId), 2 * t.rest.length + 2 ≤ fuel →
    2 * t.rest.length + 2 ≤ fuel' → Models t T → Unreserved (keys (.items :: st) t.rest) →
    t.table[i]? = some (.list l) →
    Ends (items registry scope fuel inert l) (items registry scope fuel' inert l) t
      fun _ t' => ∃ ts T', Derives T (.items i) ts T' ∧
        t.rest = ts ++ .mark .listClose :: t'.rest ∧ Passed t t' T' t'.rest

def EndsEntries (registry : Registry) (scope : Option DictId) (fuel : Nat) : Prop :=
  ∀ fuel' inert t T st (i : Nat) (d : DictId), 2 * t.rest.length + 2 ≤ fuel →
    2 * t.rest.length + 2 ≤ fuel' → Models t T → Unreserved (keys (.entries :: st) t.rest) →
    t.table[i]? = some (.dict d) →
    Ends (entries registry scope fuel inert d) (entries registry scope fuel' inert d) t
      fun _ t' => ∃ ts T', Derives T .entries ts T' ∧
        t.rest = ts ++ .mark .dictClose :: t'.rest ∧ Passed t t' T' t'.rest

theorem endsItems_succ (hvalue : EndsValue registry scope fuel)
    (hitems : EndsItems registry scope fuel) : EndsItems registry scope (fuel + 1) := by
  intro fuel' inert t T st i l hfuel hfuel' hm hkeys hl
  obtain ⟨fuel', rfl⟩ : ∃ f, fuel' = f + 1 := ⟨fuel' - 1, by omega⟩
  rw [items, items]
  refine ends_close (fun rest ht => ?_) fun tok rest ht htok => ?_
  · exact .of_gives (gives_pure _ _) ⟨[], T, .noItem, ht, rfl, hm.same rfl rfl rfl, .refl t⟩
  · have hkeys₁ : Unreserved (keys (.value :: .items :: st) t.rest) := by
      rw [ht] at hkeys ⊢
      rwa [← keys_items htok]
    refine (hvalue fuel' inert t T (.items :: st) (by omega) (by omega) hm hkeys₁).bind ?_
    rintro v t₁ ⟨g, ts, T₁, hts, hsplit, hpassed, hv⟩
    obtain ⟨tok', ts', rfl, -⟩ := hts.exists_cons
    have hlen : t.rest.length = ts'.length + 1 + t₁.rest.length := by simp [hsplit]; omega
    have hl₁ := hpassed.keeps _ _ hl
    have hkeys₂ : Unreserved (keys (.items :: st) t₁.rest) :=
      (hsplit ▸ hkeys₁).sublist (hts.keys_sublist _ _)
    refine .of_gives_bind (gives_change _ _) ?_
    refine (hitems fuel' inert _ _ st i l ?_ ?_ (hpassed.models.pushItem hl₁ hv) hkeys₂ hl₁).mono ?_
    · show 2 * t₁.rest.length + 2 ≤ fuel
      omega
    · show 2 * t₁.rest.length + 2 ≤ fuel'
      omega
    · rintro - t₂ ⟨us, T₂, hus, hsplit', hpassed'⟩
      refine ⟨_, T₂, .item hts hus, ?_, rfl, hpassed'.models, ?_⟩
      · rw [hsplit, List.append_assoc, ← hsplit']
      · exact hpassed.keeps.trans hpassed'.keeps

theorem endsEntries_succ (hvalue : EndsValue registry scope fuel)
    (hentries : EndsEntries registry scope fuel) : EndsEntries registry scope (fuel + 1) := by
  intro fuel' inert t T st i d hfuel hfuel' hm hkeys hd
  obtain ⟨fuel', rfl⟩ : ∃ f, fuel' = f + 1 := ⟨fuel' - 1, by omega⟩
  rw [entries, entries]
  refine ends_close (fun rest ht => ?_) fun _ _ _ _ => ends_next fun tok rest ht => ?_
  · exact .of_gives (gives_pure _ _) ⟨[], T, .noEntry, ht, rfl, hm.same rfl rfl rfl, .refl t⟩
  · cases tok with
    | str key =>
      rw [ht] at hkeys
      rw [ht, List.length_cons] at hfuel hfuel'
      have hkey : key ∉ reservedKeys := hkeys key List.mem_cons_self
      have hkeys₁ : Unreserved (keys (.value :: .entries :: st) rest) :=
        fun n hn => hkeys n (List.mem_cons_of_mem _ hn)
      let t₀ : Thawer := { t with rest := rest }
      refine (hvalue fuel' inert t₀ T (.entries :: st) ?_ ?_ (hm.same rfl rfl rfl) hkeys₁).bind ?_
      · show 2 * rest.length + 1 ≤ fuel
        omega
      · show 2 * rest.length + 1 ≤ fuel'
        omega
      rintro v t₁ ⟨g, ts, T₁, hts, hsplit, hpassed, hv⟩
      have hsplit : rest = ts ++ t₁.rest := hsplit
      have hlen : rest.length = ts.length + t₁.rest.length := by simp [hsplit]
      have hd₁ := hpassed.keeps _ _ hd
      have hkeys₂ : Unreserved (keys (.entries :: st) t₁.rest) :=
        (hsplit ▸ hkeys₁).sublist (hts.keys_sublist _ _)
      obtain ⟨hdefine, hm₁⟩ := hpassed.models.define (v := v) hd₁ hkey
      refine .of_gives_bind (gives_onHeap hdefine) ?_
      refine (hentries fuel' inert _ _ st i d ?_ ?_ hm₁ hkeys₂ hd₁).mono ?_
      · show 2 * t₁.rest.length + 2 ≤ fuel
        omega
      · show 2 * t₁.rest.length + 2 ≤ fuel'
        omega
      · rintro - t₂ ⟨us, T₂, hus, hsplit', hpassed'⟩
        refine ⟨_, T₂, .entry key hts hus, ?_, rfl, hpassed'.models, ?_⟩
        · rw [ht, hsplit, List.cons_append, List.append_assoc, ← hsplit']
        · exact fun j w hj => hpassed'.keeps j w (hpassed.keeps j w hj)
    | _ => exact ends_fail _

theorem ends_list {fuel' : Nat} {inert : Bool} {T : List Opened} {st : List Expected}
    (hitems : EndsItems registry scope fuel) (hfuel : 2 * t.rest.length + 2 ≤ fuel)
    (hfuel' : 2 * t.rest.length + 2 ≤ fuel') (hm : Models t T)
    (hkeys : Unreserved (keys (.items :: st) t.rest)) :
    Ends (do
        let l ← create (·.newList [])
        discard (register (.list l))
        items registry scope fuel inert l
        pure (.list l))
      (do
        let l ← create (·.newList [])
        discard (register (.list l))
        items registry scope fuel' inert l
        pure (.list l)) t (Derived T t (.mark .listOpen :: t.rest)) := by
  let t₁ : Thawer :=
    { heap := (t.heap.newList []).1.hold (.list (t.heap.newList []).2), rest := t.rest,
      table := t.table.push (.list (t.heap.newList []).2) }
  obtain ⟨hkeeps, hnumber⟩ :=
    Underway.keeps_register (t := t) (.list (t.heap.newList []).2) t₁.heap
  rw [hm.size] at hnumber
  refine .of_gives_bind (gives_create _ t) ?_
  refine .of_gives_bind (gives_register _ _).discard ?_
  refine (hitems fuel' inert t₁ _ st _ _ hfuel hfuel' (hm.openList _) hkeys hnumber).bind ?_
  rintro - t' ⟨ts, T', hts, hsplit, hpassed⟩
  refine .of_gives (gives_pure _ _) ⟨_, _, T', .list hts, ?_, ⟨rfl, hpassed.models, ?_⟩, ?_⟩
  · rw [show t.rest = _ from hsplit]
    simp
  · exact hkeeps.trans hpassed.keeps
  · exact hpassed.keeps _ _ hnumber

theorem ends_dict {fuel' : Nat} {inert : Bool} {T : List Opened} {st : List Expected}
    (hentries : EndsEntries registry scope fuel) (hfuel : 2 * t.rest.length + 2 ≤ fuel)
    (hfuel' : 2 * t.rest.length + 2 ≤ fuel') (hm : Models t T)
    (hkeys : Unreserved (keys (.entries :: st) t.rest)) :
    Ends (do
        let d ← newDict inert scope
        let number ← register (.dict d)
        entries registry scope fuel inert d
        finishDict registry scope number d)
      (do
        let d ← newDict inert scope
        let number ← register (.dict d)
        entries registry scope fuel' inert d
        finishDict registry scope number d) t (Derived T t (.mark .dictOpen :: t.rest)) := by
  let t₁ := Heap.openDict t (if inert then none else scope) t.rest
  obtain ⟨hkeeps, hnumber⟩ := Underway.keeps_register (t := t) (.dict ⟨t.heap.dicts.size⟩) t₁.heap
  refine .of_gives_bind (gives_create _ t) ?_
  refine .of_gives_bind (gives_register _ _) ?_
  refine (hentries fuel' inert t₁ _ st _ _ hfuel hfuel' (hm.openDict _ _) hkeys hnumber).bind ?_
  rintro - t' ⟨ts, T', hts, hsplit, hpassed⟩
  have hholds := hpassed.models.holds_tag (hpassed.keeps _ _ hnumber)
  refine .of_gives (gives_finishDict hholds) ⟨_, _, T', .dict hts, ?_, ⟨rfl, hpassed.models, ?_⟩,
    trivial⟩
  · rw [show t.rest = _ from hsplit]
    simp
  · exact fun i v hi => hpassed.keeps i v (hkeeps i v hi)

theorem ends_block {fuel' : Nat} {inert : Bool} {T : List Opened} {st : List Expected}
    (hvalue : EndsValue registry scope fuel) (hfuel : 2 * t.rest.length + 1 ≤ fuel)
    (hfuel' : 2 * t.rest.length + 1 ≤ fuel') (hm : Models t T)
    (hkeys : Unreserved (keys (.name :: .value :: .value :: .value :: .blockEnd :: st) t.rest)) :
    Ends (do
        let name ← blockName
        let params ← paramNames (← value registry scope fuel inert)
        let env ← blockEnv scope (← value registry scope fuel inert)
        change (·.hold (.dict env))
        let body ← blockBody (← value registry scope fuel inert)
        change (·.letGo env)
        if ← close .blockClose then
          create (·.newBlock
            { id := 0, name := name, params := params, body := body, env := env, receiver := none })
        else fail (.expected Mark.blockClose.text))
      (do
        let name ← blockName
        let params ← paramNames (← value registry scope fuel' inert)
        let env ← blockEnv scope (← value registry scope fuel' inert)
        change (·.hold (.dict env))
        let body ← blockBody (← value registry scope fuel' inert)
        change (·.letGo env)
        if ← close .blockClose then
          create (·.newBlock
            { id := 0, name := name, params := params, body := body, env := env, receiver := none })
        else fail (.expected Mark.blockClose.text)) t
      (Derived T t (.mark .blockOpen :: t.rest)) := by
  refine (ends_blockName t).bind ?_
  rintro name t₀ ⟨tok, rest, ht, hname, rfl⟩
  rw [ht] at hkeys
  rw [ht, List.length_cons] at hfuel hfuel'
  have hkeys₁ : Unreserved (keys (.value :: .value :: .value :: .blockEnd :: st) rest) := by
    obtain rfl | ⟨text, rfl⟩ := hname <;> exact hkeys
  -- the parameters
  have hm₀ : Models { t with rest := rest } T := hm.same rfl rfl rfl
  refine (hvalue fuel' inert _ T _ ?_ ?_ hm₀ hkeys₁).bind ?_
  · show 2 * rest.length + 1 ≤ fuel
    omega
  · show 2 * rest.length + 1 ≤ fuel'
    omega
  rintro v₁ t₁ ⟨g₁, ps, T₁, hps, hsplit₁, hpassed₁, hv₁⟩
  have hsplit₁ : rest = ps ++ t₁.rest := hsplit₁
  have hlen₁ : rest.length = ps.length + t₁.rest.length := by simp [hsplit₁]
  refine (ends_paramNames hpassed₁.models hv₁).bind ?_
  rintro params t' ⟨heq, i, rfl, hi⟩
  subst t'
  -- the environment
  have hkeys₂ : Unreserved (keys (.value :: .value :: .blockEnd :: st) t₁.rest) :=
    (hsplit₁ ▸ hkeys₁).sublist (hps.keys_sublist _ _)
  refine (hvalue fuel' inert _ T₁ _ (by omega) (by omega) hpassed₁.models hkeys₂).bind ?_
  rintro v₂ t₂ ⟨g₂, es, T₂, hes, hsplit₂, hpassed₂, hv₂⟩
  have hlen₂ : t₁.rest.length = es.length + t₂.rest.length := by simp [hsplit₂]
  refine (ends_blockEnv scope hv₂).bind ?_
  rintro env t₃ ⟨hg₂, hrest₃, htable₃, hgrown₃⟩
  refine .of_gives_bind (gives_change _ t₃) ?_
  -- the body
  let t₄ : Thawer := { t₃ with heap := t₃.heap.hold (.dict env) }
  have hm₄ : Models t₄ T₂ :=
    (hpassed₂.models.grown htable₃ hgrown₃).same rfl (lists_hold _ _) (dicts_hold _ _)
  have hrest₄ : t₄.rest = t₂.rest := hrest₃
  have hkeys₄ : Unreserved (keys (.value :: .blockEnd :: st) t₄.rest) :=
    hrest₄ ▸ (hsplit₂ ▸ hkeys₂).sublist (hes.keys_sublist _ _)
  refine (hvalue fuel' inert t₄ T₂ _ (by rw [hrest₄]; omega) (by rw [hrest₄]; omega) hm₄
    hkeys₄).bind ?_
  rintro v₅ t₅ ⟨g₅, bs, T₃, hbs, hsplit₅, hpassed₅, hv₅⟩
  refine (ends_blockBody hv₅).bind ?_
  rintro body t' ⟨heq, j, rfl⟩
  subst t'
  refine .of_gives_bind (gives_change _ t₅) ?_
  refine ends_close (fun rest₆ ht₆ => ?_) fun _ _ _ _ => ends_fail _
  let b : Block := ⟨0, name, params, body, env, none⟩
  refine .of_gives (gives_create (·.newBlock b) _) ⟨_, _, T₃, .block hname hps hi hes hg₂ hbs, ?_,
    ⟨rfl, ?_, ?_⟩, trivial⟩
  · have ht₆ : t₅.rest = .mark .blockClose :: rest₆ := ht₆
    rw [ht, hsplit₁, hsplit₂, ← hrest₄, hsplit₅, ht₆]
    simp
  · exact hpassed₅.models.same rfl (by simp [newBlock]) (by simp [newBlock])
  · intro n w hn
    have hn₂ := hpassed₂.keeps n w (hpassed₁.keeps n w hn)
    exact hpassed₅.keeps n w (htable₃ ▸ hn₂)

theorem ends_ref {number : String} {T : List Opened} (hm : Models t T) :
    Ends (reference number) (reference number) t (Derived T t (.ref number :: t.rest)) := by
  refine .of_gives_bind (gives_get t) ?_
  cases hi : (readIndex? number).bind fun i => t.table[i]? with
  | none =>
    simp only [hi]
    exact ends_fail _
  | some v =>
    obtain ⟨i, hnumber, hv⟩ := Option.bind_eq_some_iff.mp hi
    obtain ⟨o, ho, his⟩ := hm.exists_opened hv
    simp only [hi]
    exact .of_gives (gives_pure v t) ⟨_, _, T, .ref hnumber ho, rfl, ⟨rfl, hm, .refl t⟩,
      Given.of_given his hv⟩

theorem endsValue_succ (hvalue : EndsValue registry scope fuel)
    (hitems : EndsItems registry scope fuel) (hentries : EndsEntries registry scope fuel) :
    EndsValue registry scope (fuel + 1) := by
  intro fuel' inert t T st hfuel hfuel' hm hkeys
  obtain ⟨fuel', rfl⟩ : ∃ f, fuel' = f + 1 := ⟨fuel' - 1, by omega⟩
  rw [value, value]
  refine ends_next fun tok rest ht => ?_
  rw [ht] at hkeys ⊢
  rw [ht, List.length_cons] at hfuel hfuel'
  have hm₀ : Models { t with rest := rest } T := hm.same rfl rfl rfl
  have hread : ∀ {x y : Thaw Value},
      Ends x y { t with rest := rest } (Derived T { t with rest := rest } (tok :: rest)) →
      Ends x y { t with rest := rest } (Derived T t (tok :: rest)) := by
    intro x y hxy
    refine hxy.mono ?_
    rintro v t' ⟨g, ts, T', hts, hsplit, hpassed, hv⟩
    exact ⟨g, ts, T', hts, hsplit, ⟨rfl, hpassed.models, hpassed.keeps⟩, hv⟩
  have hleaf : ∀ {g : Given} {v : Value}, Derives T (.value g) [tok] T → g.Of t.table v →
      Ends (pure v) (pure v) { t with rest := rest } (Derived T t (tok :: rest)) :=
    fun hg hv => .of_gives (gives_pure _ _) ⟨_, _, T, hg, rfl, ⟨rfl, hm₀, .refl _⟩, hv⟩
  have hquoted : ∀ (quote : Value → Value) inert',
      (∀ table v, Given.other.Of table (quote v)) →
      (∀ g ts T', Derives T (.value g) ts T' → Derives T (.value .other) (tok :: ts) T') →
      Unreserved (keys (.value :: st) rest) →
      Ends (do return quote (← value registry scope fuel inert'))
        (do return quote (← value registry scope fuel' inert')) { t with rest := rest }
        (Derived T t (tok :: rest)) := by
    intro quote inert' hof hderives hkeys'
    refine (hvalue fuel' inert' { t with rest := rest } T st ?_ ?_ hm₀ hkeys').bind ?_
    · show 2 * rest.length + 1 ≤ fuel
      omega
    · show 2 * rest.length + 1 ≤ fuel'
      omega
    rintro v t' ⟨g, ts, T', hts, hsplit, hpassed, -⟩
    refine .of_gives (gives_pure _ _) ⟨_, _, T', hderives g ts T' hts, ?_,
      ⟨rfl, hpassed.models, hpassed.keeps⟩, hof _ v⟩
    rw [show rest = _ from hsplit]
    rfl
  cases tok with
  | null => exact hleaf .null trivial
  | bool b => exact hleaf (.bool b) trivial
  | num n => exact hleaf (.num n) trivial
  | str text => exact hleaf (.str text) trivial
  | sym name => exact hleaf (.sym name) trivial
  | ref number => exact hread (ends_ref hm₀)
  | mark m =>
    cases m with
    | quote => exact hquoted .quote inert (fun _ _ => trivial) (fun _ _ _ => .quote) hkeys
    | fullQuote =>
      exact hquoted .fullQuote true (fun _ _ => trivial) (fun _ _ _ => .fullQuote) hkeys
    | listOpen =>
      refine hread (ends_list hitems ?_ ?_ hm₀ hkeys)
      · show 2 * rest.length + 2 ≤ fuel
        omega
      · show 2 * rest.length + 2 ≤ fuel'
        omega
    | dictOpen =>
      refine hread (ends_dict hentries ?_ ?_ hm₀ hkeys)
      · show 2 * rest.length + 2 ≤ fuel
        omega
      · show 2 * rest.length + 2 ≤ fuel'
        omega
    | blockOpen =>
      refine hread (ends_block hvalue ?_ ?_ hm₀ hkeys)
      · show 2 * rest.length + 1 ≤ fuel
        omega
      · show 2 * rest.length + 1 ≤ fuel'
        omega
    | _ => exact ends_fail _
  | _ => exact ends_fail _

/-- With fuel enough every stream is read to a value that is derived, or is malformed. -/
theorem ends_all (registry : Registry) (scope : Option DictId) (fuel : Nat) :
    EndsValue registry scope fuel ∧ EndsItems registry scope fuel ∧
      EndsEntries registry scope fuel := by
  induction fuel with
  | zero =>
    refine ⟨fun _ _ _ _ _ hfuel => ?_, fun _ _ _ _ _ _ _ hfuel => ?_,
      fun _ _ _ _ _ _ _ hfuel => ?_⟩
    · exact absurd hfuel (by omega)
    · exact absurd hfuel (by omega)
    · exact absurd hfuel (by omega)
  | succ fuel ih =>
    obtain ⟨hvalue, hitems, hentries⟩ := ih
    exact ⟨endsValue_succ hvalue hitems hentries, endsItems_succ hvalue hitems,
      endsEntries_succ hvalue hentries⟩

theorem ends_whole {count count' : Nat} {T : List Opened} (hcount : t.rest.length ≤ count)
    (hcount' : t.rest.length ≤ count') (hm : Models t T)
    (hkeys : Unreserved (keys [.value] t.rest)) :
    Ends (whole registry scope count) (whole registry scope count') t
      fun _ _ => ∃ g T', Derives T (.value g) t.rest T' := by
  refine ((ends_all registry scope (2 * count + 2)).1 (2 * count' + 2) false t T [] (by omega)
    (by omega) hm hkeys).bind ?_
  rintro v t' ⟨g, ts, T', hts, hsplit, -, -⟩
  refine .of_gives_bind (gives_get t') ?_
  cases hrest : t'.rest with
  | nil =>
    rw [hrest, List.append_nil] at hsplit
    exact .of_gives (gives_pure v t') ⟨g, T', hsplit ▸ hts⟩
  | cons tok rest => exact ends_fail _

end

end Thaw

namespace Heap
variable {h : Heap} {registry : Registry} {scope : Option DictId} {ts : List Token}

/-- A thaw of tokens ends as the program for the whole stream does. -/
theorem thawTokens_fst : (h.thawTokens registry ts scope).1 =
    ((Thaw.whole registry scope ts.length).run.run { heap := h.enter [], rest := ts }).1 := rfl

theorem models_enter (h : Heap) (ts : List Token) :
    Thaw.Models { heap := h.enter [], rest := ts } [] where
  size := rfl
  is i o v hi _ := by simp at hi
  apart i j l hi _ := by simp at hi

theorem exists_gives_whole {g : Given} {T : List Opened} (h : Heap) (registry : Registry)
    (scope : Option DictId) (hts : Derives [] (.value g) ts T)
    (hkeys : Unreserved (keys [.value] ts)) :
    ∃ v t',
      Thaw.Gives (Thaw.whole registry scope ts.length) { heap := h.enter [], rest := ts } v t' ∧
      Thaw.Attaches scope false ts { heap := h.enter [], rest := ts } t' := by
  obtain ⟨v, t', hrun, hpassed, -, hattaches⟩ := hts.accepts (2 * ts.length + 2) false
    { heap := h.enter [], rest := ts } [] [] (by omega) (models_enter h ts)
    (List.append_nil ts).symm hkeys
  refine ⟨v, t', hrun.bind ((Thaw.gives_get t').bind ?_), hattaches⟩
  simp only [hpassed.rest]
  exact Thaw.gives_pure v t'

theorem exists_thawTokens {g : Given} {T : List Opened} (hts : Derives [] (.value g) ts T)
    (hkeys : Unreserved (keys [.value] ts)) : ∃ v, (h.thawTokens registry ts scope).1 = .ok v := by
  obtain ⟨v, t', hwhole, -⟩ := exists_gives_whole h registry scope hts hkeys
  exact ⟨v, by rw [thawTokens_fst, hwhole]⟩

/-- Thawing accepts the streams of the grammar and no others, in any scope and with any defrosters,
as long as no key is that of a tag or of a link. All others are malformed, and more fuel than there
is makes no difference. -/
theorem thaw_ok_iff_derives (h : Heap) (registry : Registry) (scope : Option DictId)
    (tokens : List Json) (hkeys : ∀ key ∈ keys [.value] (tokens.map Token.ofJson),
      key ∉ ["native", "parent", "^", "caller"]) :
    ((∃ v, (h.thaw registry (.arr tokens) scope).1 = .ok v) ↔
        ∃ g T, Derives [] (.value g) (tokens.map Token.ofJson) T) ∧
      ((¬ ∃ g T, Derives [] (.value g) (tokens.map Token.ofJson) T) →
        ∃ why, (h.thaw registry (.arr tokens) scope).1 = .error (.malformed why)) ∧
      ∀ count, tokens.length ≤ count →
        (Thaw.whole registry scope count).run.run
            { heap := h.enter [], rest := tokens.map Token.ofJson } =
          (Thaw.whole registry scope tokens.length).run.run
            { heap := h.enter [], rest := tokens.map Token.ofJson } := by
  have hlen : (tokens.map Token.ofJson).length = tokens.length := List.length_map _
  have hends : ∀ count, tokens.length ≤ count → Thaw.Ends (Thaw.whole registry scope tokens.length)
      (Thaw.whole registry scope count) { heap := h.enter [], rest := tokens.map Token.ofJson }
      fun _ _ => ∃ g T, Derives [] (.value g) (tokens.map Token.ofJson) T :=
    fun count hcount => Thaw.ends_whole hlen.le (hlen.le.trans hcount) (models_enter h _) hkeys
  have hthaw : (h.thaw registry (.arr tokens) scope).1 = ((Thaw.whole registry scope
      tokens.length).run.run { heap := h.enter [], rest := tokens.map Token.ofJson }).1 := by
    rw [thaw, thawTokens_fst, hlen]
  obtain ⟨-, hresult⟩ := hends _ le_rfl
  refine ⟨⟨?_, ?_⟩, fun hnot => ?_, fun count hcount => (hends count hcount).1⟩
  · rintro ⟨v, hv⟩
    rw [hthaw] at hv
    generalize (Thaw.whole registry scope tokens.length).run.run _ = x at hv hresult
    obtain ⟨_, t⟩ := x
    cases hv
    exact hresult
  · rintro ⟨g, T, hts⟩
    exact exists_thawTokens hts hkeys
  · rw [hthaw]
    generalize (Thaw.whole registry scope tokens.length).run.run _ = x at hresult
    obtain ⟨result, t⟩ := x
    cases result with
    | error e => obtain ⟨why, rfl⟩ := hresult; exact ⟨why, rfl⟩
    | ok v => exact (hnot hresult).elim

/-- A block whose environment holds itself and whose body is its list of parameters. -/
def sharedBlock : List Json :=
  [.str "(", .null, .str "[", .str "$x", .str "]", .str "\x7b", .str "'k", .str "&1", .str "\x7d",
    .str "&0", .str ")"]

theorem tokens_sharedBlock : sharedBlock.map Token.ofJson =
    [.mark .blockOpen, .null, .mark .listOpen, .sym "x", .mark .listClose, .mark .dictOpen,
      .str "k", .ref "1", .mark .dictClose, .ref "0", .mark .blockClose] := rfl

theorem derives_sharedBlock : ∃ g T, Derives [] (.value g) (sharedBlock.map Token.ofJson) T := by
  have hparams : Derives [] (.value (.list 0)) [.mark .listOpen, .sym "x", .mark .listClose]
      [.list true] := .list (.item (.sym "x") .noItem)
  have henv : Derives [.list true] (.value .dict)
      [.mark .dictOpen, .str "k", .ref "1", .mark .dictClose] [.list true, .dict] :=
    .dict (.entry "k" (.ref (i := 1) (readIndex?_toString 1) rfl) .noEntry)
  have hbody : Derives [.list true, .dict] (.value (.list 0)) [.ref "0"] [.list true, .dict] :=
    .ref (o := .list true) (readIndex?_toString 0) rfl
  exact ⟨_, _, .block (.inl rfl) hparams rfl henv (.inl rfl) hbody⟩

/-- References may close a loop or serve as a body, but not lead nowhere. -/
theorem thaw_sharedBlock :
    (∃ v, (({} : Heap).thaw Registry.standard (.arr sharedBlock) none).1 = .ok v) ∧
      ∃ why, (({} : Heap).thaw Registry.standard (.arr [.str "&0"]) none).1 =
        .error (.malformed why) := by
  constructor
  · refine (thaw_ok_iff_derives {} Registry.standard none sharedBlock ?_).1.mpr derives_sharedBlock
    rw [tokens_sharedBlock]
    simp [keys, Token.expects]
  · refine (thaw_ok_iff_derives {} Registry.standard none [.str "&0"] ?_).2.1 ?_
    · simp [keys, Token.ofJson, show Token.ofText "&0" = .ref "0" from rfl]
    · rintro ⟨g, T, hts⟩
      have hts : Derives [] (.value g) [.ref "0"] T := hts
      cases hts with
      | ref _ ho => cases ho

end Heap
end DictScript
