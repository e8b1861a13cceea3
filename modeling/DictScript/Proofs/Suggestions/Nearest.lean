import DictScript.Proofs.Dictionaries.Visible

/-!
Suggestions for a name that is bound nowhere. What is suggested is visible from where the name was
looked up, no other visible name is nearer to it, and of those as near it is the first on the chain.
-/
namespace DictScript
open Heap
variable {h : Heap} {d env : DictId} {name candidate n s : String} {v : Value}
variable {names seen rest : List String} {best : Option (String × Nat)} {threshold : Nat}
variable {xs : List (String × Value)}

/-! The first of the nearest candidates. -/

def FirstNearest (name : String) (names : List String) (s : String) : Prop :=
  ∃ before behind, names = before ++ s :: behind ∧
    (∀ n ∈ before, editDistance name s < editDistance name n) ∧
    ∀ n ∈ behind, editDistance name s ≤ editDistance name n

def Keeps (name : String) (threshold : Nat) (seen : List String) : Option (String × Nat) → Prop
  | none => ∀ n ∈ seen, threshold < editDistance name n
  | some (s, least) =>
    least = editDistance name s ∧ least ≤ threshold ∧ FirstNearest name seen s

namespace FirstNearest

theorem mem (hs : FirstNearest name names s) : s ∈ names := by
  obtain ⟨before, behind, rfl, -, -⟩ := hs
  simp

theorem le (hs : FirstNearest name names s) (hn : n ∈ names) :
    editDistance name s ≤ editDistance name n := by
  obtain ⟨before, behind, rfl, hbefore, hbehind⟩ := hs
  obtain hn | rfl | hn := by simpa using hn
  · exact (hbefore n hn).le
  · exact le_rfl
  · exact hbehind n hn

/-- A candidate that is nearer than all others takes the place. -/
theorem concat_of_lt (hnames : ∀ n ∈ names, editDistance name candidate < editDistance name n) :
    FirstNearest name (names ++ [candidate]) candidate :=
  ⟨names, [], rfl, hnames, List.forall_mem_nil _⟩

theorem concat_of_le (hs : FirstNearest name names s)
    (hle : editDistance name s ≤ editDistance name candidate) :
    FirstNearest name (names ++ [candidate]) s := by
  obtain ⟨before, behind, rfl, hbefore, hbehind⟩ := hs
  refine ⟨before, behind ++ [candidate], by simp, hbefore, fun n hn => ?_⟩
  obtain hn | rfl := by simpa using hn
  · exact hbehind n hn
  · exact hle

/-- In a list without repetitions those that are as near come later. -/
theorem eq_or_before {R : String → String → Prop} (hs : FirstNearest name names s)
    (hnames : names.Pairwise R) (hn : n ∈ names)
    (hsame : editDistance name n = editDistance name s) : n = s ∨ R s n := by
  obtain ⟨before, behind, rfl, hbefore, -⟩ := hs
  obtain hn | rfl | hn := by simpa using hn
  · exact absurd hsame (hbefore n hn).ne'
  · exact .inl rfl
  · obtain ⟨-, hbehind, -⟩ := List.pairwise_append.mp hnames
    exact .inr ((List.pairwise_cons.mp hbehind).1 n hn)

end FirstNearest

theorem Keeps.closer (hbest : Keeps name threshold seen best) (hne : candidate ≠ name) :
    Keeps name threshold (seen ++ [candidate]) (closer name threshold best candidate) := by
  rw [DictScript.closer, if_neg hne]
  cases best with
  | none =>
    simp only
    split
    · rename_i hnear
      exact ⟨rfl, hnear, .concat_of_lt fun n hn => hnear.trans_lt (hbest n hn)⟩
    · rename_i hfar
      refine List.forall_mem_append.mpr ⟨hbest, List.forall_mem_singleton.mpr ?_⟩
      exact Nat.lt_of_not_le hfar
  | some kept =>
    obtain ⟨s, least⟩ := kept
    obtain ⟨rfl, hleast, hs⟩ := hbest
    simp only
    split
    · rename_i hnearer
      exact ⟨rfl, hnearer.1, .concat_of_lt fun n hn => hnearer.2.trans_le (hs.le hn)⟩
    · rename_i hnot
      refine ⟨rfl, hleast, hs.concat_of_le ?_⟩
      by_contra hlt
      exact hnot ⟨(Nat.lt_of_not_le hlt).le.trans hleast, Nat.lt_of_not_le hlt⟩

theorem Keeps.foldl (hbest : Keeps name threshold seen best) (hrest : name ∉ rest) :
    Keeps name threshold (seen ++ rest) (rest.foldl (DictScript.closer name threshold) best) := by
  induction rest generalizing seen best with
  | nil => rwa [List.append_nil]
  | cons candidate rest ih =>
    obtain ⟨hne, hrest⟩ := List.ne_and_not_mem_of_not_mem_cons hrest
    have hnext := ih (hbest.closer (Ne.symm hne)) hrest
    rwa [List.append_assoc, List.singleton_append] at hnext

/-- Nothing near enough is there, or the first of what is nearest is taken. -/
theorem similarName_cases (hname : name ∉ names) (threshold : Nat) :
    (similarName name names threshold = none ∧ ∀ n ∈ names, threshold < editDistance name n) ∨
      ∃ s, similarName name names threshold = some s ∧ editDistance name s ≤ threshold ∧
        FirstNearest name names s := by
  have hstart : Keeps name threshold [] none := List.forall_mem_nil _
  have hkeeps := hstart.foldl hname
  rw [List.nil_append] at hkeeps
  rw [similarName]
  generalize names.foldl (closer name threshold) none = best at hkeeps
  cases best with
  | none => exact .inl ⟨rfl, hkeeps⟩
  | some kept =>
    obtain ⟨s, least⟩ := kept
    obtain ⟨rfl, hleast, hs⟩ := hkeeps
    exact .inr ⟨s, rfl, hleast, hs⟩

namespace Heap

/-! What is suggested for a name that was looked up from `d`. -/

structure Suggests (h : Heap) (d : DictId) (name : String) (s : Option String) : Prop where
  isSome_iff : s.isSome ↔ ∃ n, h.Visible d n ∧ editDistance name n ≤ 2
  visible : ∀ t, s = some t → h.Visible d t
  nearest : ∀ t, s = some t → ∀ n, h.Visible d n → editDistance name t ≤ editDistance name n
  first : ∀ t, s = some t → ∀ n, h.Visible d n → editDistance name n = editDistance name t →
    h.place d t ≤ h.place d n

theorem suggests_unboundFrom (hordinary : ∀ e, ∀ n ∈ h.names e, Key.of n = .slot n)
    (hnone : h.find d name = none) :
    ∃ s, h.unboundFrom d name = .unbound name s ∧ h.Suggests d name s := by
  have hmem : ∀ n, n ∈ h.visibleNames d ↔ h.Visible d n := mem_visibleNames hordinary d
  have hname : name ∉ h.visibleNames d := by
    intro hvisible
    have hfound := ((hmem name).mp hvisible).2
    simp [hnone] at hfound
  refine ⟨_, rfl, ?_⟩
  obtain ⟨hs, hfar⟩ | ⟨s, hs, hnear, hfirst⟩ := similarName_cases hname suggestionThreshold
  · rw [hs]
    refine ⟨⟨nofun, fun ⟨n, hn, hnear⟩ => ?_⟩, nofun, nofun, nofun⟩
    exact (Nat.not_lt.mpr hnear (hfar n ((hmem n).mpr hn))).elim
  · rw [hs]
    have hvisible := (hmem s).mp hfirst.mem
    refine ⟨⟨fun _ => ⟨s, hvisible, hnear⟩, fun _ => rfl⟩, ?_, ?_, ?_⟩
    · rintro t ⟨⟩
      exact hvisible
    · rintro t ⟨⟩ n hn
      exact hfirst.le ((hmem n).mpr hn)
    · rintro t ⟨⟩ n hn hsame
      obtain rfl | hlt :=
        hfirst.eq_or_before (pairwise_place hordinary d) ((hmem n).mpr hn) hsame
      · exact le_rfl
      · exact hlt.le

/-! Assignments. -/

inductive RebindsFrom (env : DictId) : Heap → List (String × Value) → Heap → Prop where
  | done (h : Heap) : RebindsFrom env h [] h
  | next {h k : Heap} {d : DictId} {n : String} {v : Value} {xs : List (String × Value)} :
      h.find env n = some d → RebindsFrom env (h.put d n v) xs k → RebindsFrom env h ((n, v) :: xs) k

theorem Reached.names_ordinary (hh : h.Reached) (e : DictId) (n : String) (hn : n ∈ h.names e) :
    Key.of n = .slot n :=
  hh.region.tidy.names hn

theorem Reached.put (hh : h.Reached) (hd : h.Allocated (.dict d)) (hn : Key.of n = .slot n)
    (hv : h.Bounded v) : (h.put d n v).Reached := by
  have hturn : h.Turn ((HostOp.define d n v).run h).1 := by
    refine .operation _ fun w hw => ?_
    obtain rfl | rfl := by simpa [HostOp.held] using hw
    · exact fun r hr => List.mem_singleton.mp hr ▸ hd
    · exact hv
  have hput : ((HostOp.define d n v).run h).1 = h.put d n v := by
    simp only [HostOp.run, Heap.define, hn]
  exact Later.reached (.single (hput ▸ hturn)) hh

/-- An assignment rebinds all names, or the names in front of one that is bound nowhere by then. -/
theorem Reached.assignAll_cases (hh : h.Reached)
    (hxs : ∀ x ∈ xs, Key.of x.1 = .slot x.1 ∧ h.Bounded x.2) :
    (∃ k, h.RebindsFrom env xs k ∧ assignAll env xs h = (.ret .nil, k)) ∨
      ∃ done n v rest k s, xs = done ++ (n, v) :: rest ∧ h.RebindsFrom env done k ∧
        k.find env n = none ∧ k.Suggests env n s ∧
        assignAll env xs h = (.failIn k env (.unbound n s), k) := by
  induction xs generalizing h with
  | nil => exact .inl ⟨h, .done h, rfl⟩
  | cons x xs ih =>
    obtain ⟨n, v⟩ := x
    obtain ⟨⟨hn, hv⟩, hxs⟩ := List.forall_mem_cons.mp hxs
    cases hd : h.find env n with
    | none =>
      obtain ⟨s, hcause, hs⟩ := suggests_unboundFrom hh.names_ordinary hd
      refine .inr ⟨[], n, v, xs, h, s, rfl, .done h, hd, hs, ?_⟩
      simp only [assignAll, hd, hcause]
    | some d =>
      have hmade : h.Allocated (.dict d) := allocated_of_holds (holds_of_find hd)
      have hstep : assignAll env ((n, v) :: xs) h = assignAll env xs (h.put d n v) := by
        simp only [assignAll, hd]
      have hrest : ∀ x ∈ xs, Key.of x.1 = .slot x.1 ∧ (h.put d n v).Bounded x.2 := fun x hx =>
        ⟨(hxs x hx).1, fun r hr => (allocated_modifyCell _ _).mpr ((hxs x hx).2 r hr)⟩
      rw [hstep]
      obtain ⟨k, hk, heq⟩ | ⟨done, m, w, rest, k, s, rfl, hk, hnone, hs, heq⟩ :=
        ih (hh.put hmade hn hv) hrest
      · exact .inl ⟨k, .next hd hk, heq⟩
      · exact .inr ⟨(n, v) :: done, m, w, rest, k, s, rfl, .next hd hk, hnone, hs, heq⟩

/-- A name that is bound nowhere is an error, with a suggestion from the chain on which the name was
looked up: that of the environment for a symbol and for an assignment, in the state in which the
assignment has come to the name, and that of the dictionary for a field. There is a suggestion just
if a visible name is within two edits. Then it is bound on that chain, no visible name is nearer,
and of those as near it is the first on the chain, and the first of its dictionary. -/
theorem Reached.suggestions_nearest (hh : h.Reached) (rt : Runtime) (depth : Nat) :
    (∀ name env, name ≠ envName → h.find env name = none → ∃ s, h.Suggests env name s ∧
      evalExpr rt depth (.sym name) env h = (.failIn h env (.unbound name s), h)) ∧
    (∀ env bindings,
      let rebound := (Frame.operand .assign env .dict [] []).resume rt depth (.dict bindings) h
      (∃ k, h.RebindsFrom env (h.slots bindings) k ∧ rebound = (.ret .nil, k)) ∨
      ∃ done n v rest k s, h.slots bindings = done ++ (n, v) :: rest ∧ h.RebindsFrom env done k ∧
        k.find env n = none ∧ k.Suggests env n s ∧
        rebound = (.failIn k env (.unbound n s), k)) ∧
    (∀ name env dict scope, h.find dict name = none → ∃ s, h.Suggests dict name s ∧
      (Frame.within env dict scope).resume rt depth (.sym name) h =
        (.failIn h env (.unbound name s), h)) := by
  refine ⟨fun name env hname hnone => ?_, fun env bindings => ?_,
    fun name env dict scope hnone => ?_⟩
  · obtain ⟨s, hcause, hs⟩ := suggests_unboundFrom hh.names_ordinary hnone
    refine ⟨s, hs, ?_⟩
    simp only [evalExpr, evalSymbol, if_neg hname, hnone, hcause]
  · refine hh.assignAll_cases fun x hx => ?_
    have hmade : h.Allocated (.dict bindings) := by
      by_contra hnew
      rw [slots_of_size_le (Nat.le_of_not_lt hnew)] at hx
      exact List.not_mem_nil hx
    exact ⟨hh.names_ordinary bindings x.1 (List.mem_map_of_mem hx), hh.region.has_slot hmade hx⟩
  · obtain ⟨s, hcause, hs⟩ := suggests_unboundFrom hh.names_ordinary hnone
    refine ⟨s, hs, ?_⟩
    simp only [Frame.resume, finishWithin, field, hnone, hcause]

/-- From a view of the root environment there is no `nott`. The nearest name is suggested, which the
view shows of the root environment. -/
theorem Reached.suggestions_nearest_withView : ∃ (h : Heap) (d : DictId) (s : Option String),
    h.Reached ∧ h.find d "nott" = none ∧ h.Suggests d "nott" s ∧ s.isSome ∧
    evalExpr (Interpreter.standard 100).runtime 0 (.sym "nott") d h =
      (.failIn h d (.unbound "nott" s), h) := by
  obtain ⟨hsymbol, -, -⟩ :=
    reached_withView.suggestions_nearest (Interpreter.standard 100).runtime 0
  have hnone : Interpreter.withView.find ⟨20⟩ "nott" = none := by decide +kernel
  obtain ⟨s, hs, heval⟩ := hsymbol "nott" ⟨20⟩ (by decide) hnone
  have hfound : (Interpreter.withView.find ⟨20⟩ "not").isSome := by decide +kernel
  have hnear : editDistance "nott" "not" ≤ 2 := by decide +kernel
  exact ⟨_, _, s, reached_withView, hnone, hs,
    hs.isSome_iff.mpr ⟨"not", ⟨by decide, hfound⟩, hnear⟩, heval⟩

end Heap
end DictScript
