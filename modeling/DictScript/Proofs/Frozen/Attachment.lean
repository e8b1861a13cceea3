import DictScript.Proofs.Frozen.Rejects

/-!
Which dictionaries of a stream get the scope of the thaw for a parent: those that are opened outside
of all full quotes, wherever they are referred to.
-/
namespace DictScript
namespace Heap
variable {h k : Heap} {registry : Registry} {scope : Option DictId} {ts : List Token} {v : Value}
variable {d : DictId}

/-- A stream that is thawed is one value, and dictionaries are attached as it says. -/
theorem exists_attaches (h : Heap) (scope : Option DictId) (hkeys : Unreserved (keys [.value] ts))
    (hv : (h.thawTokens registry ts scope).1 = .ok v) :
    ∃ t', Thaw.Gives (Thaw.whole registry scope ts.length) { heap := h.enter [], rest := ts } v t' ∧
      Thaw.Attaches scope false ts { heap := h.enter [], rest := ts } t' := by
  obtain ⟨-, hresult⟩ : Thaw.Ends (Thaw.whole registry scope ts.length)
      (Thaw.whole registry scope ts.length) { heap := h.enter [], rest := ts }
      fun _ _ => ∃ g T', Derives [] (.value g) ts T' :=
    Thaw.ends_whole le_rfl le_rfl (models_enter h ts) hkeys
  rw [thawTokens_fst] at hv
  generalize hrun : (Thaw.whole registry scope ts.length).run.run _ = x at hv hresult
  obtain ⟨result, t⟩ := x
  obtain rfl : result = .ok v := hv
  obtain ⟨g, T', hts⟩ := hresult
  obtain ⟨w, t', hwhole, hattaches⟩ := exists_gives_whole h registry scope hts hkeys
  obtain ⟨hw, rfl⟩ := Prod.mk.inj (hwhole.symm.trans hrun)
  cases hw
  exact ⟨t', hwhole, hattaches⟩

/-- What a new dictionary shows of its links: at most a parent that nobody has assigned. -/
theorem links_of_bare {p : Option DictId} (hd : (k.cell d).bare = { parent := p }) :
    (k.cell d).parent = p ∧ k.parent d = p.filter k.alive ∧ k.declaredParent d = none ∧
      (k.cell d).caller = none ∧ (k.cell d).name = none ∧ (k.cell d).tag = none := by
  have hparent : (k.cell d).parent = p := congrArg DictCell.parent hd
  have hscope : (k.cell d).scope = none := congrArg DictCell.scope hd
  have hdeclared : (k.cell d).declared = false := congrArg DictCell.declared hd
  refine ⟨hparent, ?_, ?_, congrArg DictCell.caller hd, congrArg DictCell.name hd,
    congrArg DictCell.tag hd⟩
  · simp only [parent, hparent, hscope, reduceCtorEq, decide_false, Bool.false_or]
  · simp [declaredParent, hdeclared]

/-- Attachment to the scope of a thaw follows full quotes, whatever the defrosters, as long as no
key is that of a tag or of a link. The dictionary that a token opens, which has the number that
references give it, has the scope for a parent if the token stands inside of no full quote, and has
no parent if it stands inside of one. No new dictionary has an assigned parent, a caller, a name or
a tag, nor any parent but the scope. -/
theorem thaw_attaches (h : Heap) (registry : Registry) (scope : Option DictId)
    (tokens : List Json) (v : Value) (hkeys : ∀ key ∈ keys [.value] (tokens.map Token.ofJson),
      key ∉ ["native", "parent", "^", "caller"])
    (hv : (h.thaw registry (.arr tokens) scope).1 = .ok v) :
    let ts := tokens.map Token.ofJson
    let k := (h.thaw registry (.arr tokens) scope).2
    ∃ t', Thaw.Gives (Thaw.whole registry scope ts.length) { heap := h.enter [], rest := ts } v t' ∧
      k = t'.heap.leave ∧
      (∀ n, ts[n]? = some (.mark .dictOpen) → ∃ d,
        t'.table[(ts.take n).countP Token.opens]? = some (Value.dict d) ∧
          ¬ h.Allocated (.dict d) ∧ k.Allocated (.dict d) ∧ k.declaredParent d = none ∧
          (Quoted ts n → (k.cell d).parent = none ∧ k.parent d = none) ∧
          (¬ Quoted ts n → (k.cell d).parent = scope ∧ k.parent d = scope.filter k.alive)) ∧
      ∀ d, ¬ h.Allocated (.dict d) → k.Allocated (.dict d) →
        ((k.cell d).parent = none ∨ (k.cell d).parent = scope) ∧ k.declaredParent d = none ∧
          (k.cell d).caller = none ∧ (k.cell d).name = none ∧ (k.cell d).tag = none := by
  intro ts k
  have hunreserved : Unreserved (keys [.value] ts) := hkeys
  obtain ⟨t', hwhole, hattaches⟩ := exists_attaches h scope hunreserved hv
  have hk : k = t'.heap.leave := by
    show (h.thawTokens registry ts scope).2 = _
    rw [thawTokens, show (Thaw.whole registry scope ts.length).run.run _ = _ from hwhole]
  have hcell : ∀ d, k.cell d = t'.heap.cell d := fun d => by rw [hk]; rfl
  have hsize : k.dicts.size = t'.heap.dicts.size := by rw [hk]; rfl
  refine ⟨t', hwhole, hk, fun n hn => ?_, fun d hold hd => ?_⟩
  · obtain ⟨d, hnumber, hle, hlt, hbare⟩ := hattaches.opened n hn
    rw [← hcell] at hbare
    obtain ⟨hparent, hseen, hdeclared, -⟩ := links_of_bare hbare
    refine ⟨d, ?_, Nat.not_lt.mpr hle, ?_, hdeclared, fun hquoted => ?_, fun hquoted => ?_⟩
    · simpa using hnumber
    · show d.index < k.dicts.size
      omega
    · simp [hparent, hseen, hquoted]
    · simp [hparent, hseen, hquoted]
  · have hlt : d.index < t'.heap.dicts.size := hsize ▸ hd
    obtain hbare | hbare := hattaches.new d (Nat.not_lt.mp hold) hlt
    · rw [← hcell] at hbare
      obtain ⟨hparent, -, hrest⟩ := links_of_bare hbare
      exact ⟨.inl hparent, hrest⟩
    · rw [← hcell] at hbare
      obtain ⟨hparent, -, hrest⟩ := links_of_bare hbare
      exact ⟨.inr hparent, hrest⟩

/-- A list of a dictionary and of a full quote with another one, which holds the first. -/
def acrossQuote : List Json :=
  [.str "[", .str "\x7b", .str "\x7d", .str "\\", .str "\x7b", .str "'k", .str "&1", .str "\x7d",
    .str "]"]

theorem tokens_acrossQuote : acrossQuote.map Token.ofJson =
    [.mark .listOpen, .mark .dictOpen, .mark .dictClose, .mark .fullQuote, .mark .dictOpen,
      .str "k", .ref "1", .mark .dictClose, .mark .listClose] := rfl

theorem derives_acrossQuote : Derives [] (.value (.list 0)) (acrossQuote.map Token.ofJson)
    [.list false, .dict, .dict] := by
  have hfirst : Derives [.list true] (.value .dict) [.mark .dictOpen, .mark .dictClose]
      [.list true, .dict] := .dict .noEntry
  have hheld : Derives [.list false, .dict] (.value .dict)
      [.mark .dictOpen, .str "k", .ref "1", .mark .dictClose] [.list false, .dict, .dict] :=
    .dict (.entry "k" (.ref (i := 1) (readIndex?_toString 1) rfl) .noEntry)
  have hrest : Derives [.list false, .dict] (.items 0)
      [.mark .fullQuote, .mark .dictOpen, .str "k", .ref "1", .mark .dictClose]
      [.list false, .dict, .dict] := .item (.fullQuote hheld) .noItem
  have hitems : Derives [.list true] (.items 0)
      [.mark .dictOpen, .mark .dictClose, .mark .fullQuote, .mark .dictOpen, .str "k", .ref "1",
        .mark .dictClose] [.list false, .dict, .dict] := .item hfirst hrest
  rw [tokens_acrossQuote]
  exact .list (T := []) hitems

/-- The dictionary outside of the full quote is attached, and the one inside is not. -/
theorem thaw_attaches_acrossQuote : ∃ (h : Heap) (s : DictId) (t' : Thawer) (d e : DictId),
    let k := (h.thaw Registry.standard (.arr acrossQuote) (some s)).2
    k = t'.heap.leave ∧ t'.table[1]? = some (Value.dict d) ∧ t'.table[2]? = some (Value.dict e) ∧
      (k.cell d).parent = some s ∧ k.parent e = none := by
  have hkeys : ∀ key ∈ keys [.value] (acrossQuote.map Token.ofJson),
      key ∉ ["native", "parent", "^", "caller"] := by
    rw [tokens_acrossQuote]
    simp [keys, Token.expects]
  obtain ⟨v, hv⟩ : ∃ v, ((({} : Heap).newDict {}).1.thawTokens Registry.standard
      (acrossQuote.map Token.ofJson) (some ⟨0⟩)).1 = .ok v :=
    exists_thawTokens derives_acrossQuote hkeys
  obtain ⟨t', -, hk, hopened, -⟩ :=
    thaw_attaches _ Registry.standard (some ⟨0⟩) acrossQuote v hkeys hv
  rw [tokens_acrossQuote] at hopened
  obtain ⟨d, hd, -, -, -, -, houtside⟩ := hopened 1 rfl
  obtain ⟨e, he, -, -, -, hinside, -⟩ := hopened 4 rfl
  refine ⟨_, ⟨0⟩, t', d, e, hk, hd, he, (houtside ?_).1, (hinside ?_).2⟩
  · rintro ⟨before, val, after, heq, -, hlt, -⟩
    obtain rfl : before = [] := List.length_eq_zero_iff.mp (Nat.lt_one_iff.mp hlt)
    cases heq
  · refine ⟨[.mark .listOpen, .mark .dictOpen, .mark .dictClose],
      [.mark .dictOpen, .str "k", .ref "1", .mark .dictClose], [.mark .listClose], rfl, ?_, ?_, ?_⟩
    · exact ⟨[.list false, .dict], _, _,
        .dict (.entry "k" (.ref (i := 1) (readIndex?_toString 1) rfl) .noEntry)⟩
    · decide
    · decide

end Heap
end DictScript
