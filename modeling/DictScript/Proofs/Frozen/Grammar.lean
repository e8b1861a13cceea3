import Mathlib
import DictScript.Frozen.Freeze

/-!
The grammar of streams. What may stand where depends on the objects that are open or read by then:
references count them, and the components of a block have to be of the right kind.
-/
namespace DictScript

/-- What is known of an object that a stream has opened: a list, with whether all its items so far
are symbols, or a dictionary. -/
inductive Opened where
  | list (symbols : Bool)
  | dict
deriving DecidableEq

inductive Given where
  | nil
  | symbol
  | list (number : Nat)
  | dict
  | other
deriving DecidableEq

namespace Opened

def given (number : Nat) : Opened → Given
  | list _ => .list number
  | dict => .dict

def note (g : Given) : Opened → Opened
  | list symbols => list (symbols && g = .symbol)
  | dict => dict

end Opened

inductive Phrase where
  | value (g : Given)
  | items (number : Nat)
  | entries

/-- With the objects `T` opened before, the tokens are such a phrase, and `T'` are the objects opened
by then. -/
inductive Derives : List Opened → Phrase → List Token → List Opened → Prop where
  | null {T : List Opened} : Derives T (.value .nil) [.null] T
  | bool {T : List Opened} (b : Bool) : Derives T (.value .other) [.bool b] T
  | num {T : List Opened} (n : JsonNumber) : Derives T (.value .other) [.num n] T
  | str {T : List Opened} (text : String) : Derives T (.value .other) [.str text] T
  | sym {T : List Opened} (name : String) : Derives T (.value .symbol) [.sym name] T
  | ref {T : List Opened} {number : String} {i : Nat} {o : Opened} :
      readIndex? number = some i → T[i]? = some o →
      Derives T (.value (o.given i)) [.ref number] T
  | quote {T T' : List Opened} {g : Given} {ts : List Token} :
      Derives T (.value g) ts T' → Derives T (.value .other) (.mark .quote :: ts) T'
  | fullQuote {T T' : List Opened} {g : Given} {ts : List Token} :
      Derives T (.value g) ts T' → Derives T (.value .other) (.mark .fullQuote :: ts) T'
  | list {T T' : List Opened} {ts : List Token} :
      Derives (T ++ [.list true]) (.items T.length) ts T' →
      Derives T (.value (.list T.length)) (.mark .listOpen :: (ts ++ [.mark .listClose])) T'
  | dict {T T' : List Opened} {ts : List Token} :
      Derives (T ++ [.dict]) .entries ts T' →
      Derives T (.value .dict) (.mark .dictOpen :: (ts ++ [.mark .dictClose])) T'
  /-- The parameters are a list of symbols by then, the environment is a dictionary or nil, and the
  body is a list. -/
  | block {T T₁ T₂ T₃ : List Opened} {name : Token} {i j : Nat} {e : Given}
      {ps es bs : List Token} :
      (name = .null ∨ ∃ text, name = .str text) →
      Derives T (.value (.list i)) ps T₁ → T₁[i]? = some (.list true) →
      Derives T₁ (.value e) es T₂ → (e = .dict ∨ e = .nil) →
      Derives T₂ (.value (.list j)) bs T₃ →
      Derives T (.value .other)
        (.mark .blockOpen :: name :: (ps ++ (es ++ (bs ++ [.mark .blockClose])))) T₃
  | noItem {T : List Opened} {i : Nat} : Derives T (.items i) [] T
  | item {T T₁ T₂ : List Opened} {i : Nat} {g : Given} {ts ts' : List Token} :
      Derives T (.value g) ts T₁ → Derives (T₁.modify i (Opened.note g)) (.items i) ts' T₂ →
      Derives T (.items i) (ts ++ ts') T₂
  | noEntry {T : List Opened} : Derives T .entries [] T
  | entry {T T₁ T₂ : List Opened} {g : Given} {ts ts' : List Token} (key : String) :
      Derives T (.value g) ts T₁ → Derives T₁ .entries ts' T₂ →
      Derives T .entries (.str key :: (ts ++ ts')) T₂

def Token.opens : Token → Bool
  | .mark .listOpen => true
  | .mark .dictOpen => true
  | _ => false

variable {T T' : List Opened} {f : Phrase} {g : Given} {ts rest : List Token} {i : Nat}

/-- The objects opened before a token are as many as the brackets opened before it. -/
theorem Derives.length (hts : Derives T f ts T') :
    T'.length = T.length + ts.countP Token.opens := by
  induction hts with
  | quote _ ih => simpa [Token.opens] using ih
  | fullQuote _ ih => simpa [Token.opens] using ih
  | list _ ih =>
    simp only [List.length_append, List.length_singleton, List.countP_cons, List.countP_append,
      List.countP_nil, Token.opens, if_true, Bool.false_eq_true, if_false] at ih ⊢
    omega
  | dict _ ih =>
    simp only [List.length_append, List.length_singleton, List.countP_cons, List.countP_append,
      List.countP_nil, Token.opens, if_true, Bool.false_eq_true, if_false] at ih ⊢
    omega
  | @block _ _ _ _ name _ _ _ _ _ _ hname _ _ _ _ _ ih₁ ih₂ ih₃ =>
    have hzero : name.opens = false := by
      obtain rfl | ⟨text, rfl⟩ := hname <;> rfl
    have hopen : (Token.mark .blockOpen).opens = false := rfl
    have hclose : (Token.mark .blockClose).opens = false := rfl
    simp only [List.countP_cons, List.countP_append, List.countP_nil, hzero, hopen, hclose,
      Bool.false_eq_true, if_false]
    omega
  | item _ _ ih₁ ih₂ =>
    rw [List.length_modify] at ih₂
    rw [List.countP_append]
    omega
  | entry key _ _ ih₁ ih₂ =>
    simp only [List.countP_cons, List.countP_append, Token.opens, Bool.false_eq_true, if_false]
    omega
  | _ => rfl

/-! Where a stream has keys. -/

inductive Expected where
  | value
  | items
  | entries
  | name
  | blockEnd
deriving DecidableEq

/-- What is to be read after the first token of a value, before `st`. Nothing more is once a token
stands where it may not. -/
def Token.expects (st : List Expected) : Token → List Expected
  | .mark .quote => .value :: st
  | .mark .fullQuote => .value :: st
  | .mark .listOpen => .items :: st
  | .mark .dictOpen => .entries :: st
  | .mark .blockOpen => .name :: .value :: .value :: .value :: .blockEnd :: st
  | .mark _ => []
  | .other _ => []
  | .nested _ => []
  | _ => st

def keys : List Expected → List Token → List String
  | _, [] => []
  | [], _ => []
  | .value :: st, t :: ts => keys (t.expects st) ts
  | .items :: st, t :: ts =>
    match t with
    | .mark .listClose => keys st ts
    | t => keys (t.expects (.items :: st)) ts
  | .entries :: st, t :: ts =>
    match t with
    | .mark .dictClose => keys st ts
    | .str key => key :: keys (.value :: .entries :: st) ts
    | _ => []
  | .name :: st, t :: ts =>
    match t with
    | .null => keys st ts
    | .str _ => keys st ts
    | _ => []
  | .blockEnd :: st, t :: ts =>
    match t with
    | .mark .blockClose => keys st ts
    | _ => []

variable {st : List Expected}

theorem Derives.exists_cons (hts : Derives T (.value g) ts T') :
    ∃ t ts', ts = t :: ts' ∧ t ≠ .mark .listClose := by
  cases hts <;> exact ⟨_, _, rfl, by simp⟩

/-- Where no list is closed, the next item is a value. -/
theorem keys_items {t : Token} (ht : t ≠ .mark .listClose) (st : List Expected)
    (ts : List Token) : keys (.items :: st) (t :: ts) = keys (.value :: .items :: st) (t :: ts) := by
  rw [keys, keys]
  exact ht

theorem Derives.keys_items (hts : Derives T (.value g) ts T') (st : List Expected)
    (rest : List Token) :
    keys (.items :: st) (ts ++ rest) = keys (.value :: .items :: st) (ts ++ rest) := by
  obtain ⟨t, ts', rfl, ht⟩ := hts.exists_cons
  exact DictScript.keys_items ht st (ts' ++ rest)

def Phrase.expected : Phrase → Expected
  | value _ => .value
  | items _ => .items
  | entries => .entries

def Phrase.closing : Phrase → List Token
  | value _ => []
  | items _ => [.mark .listClose]
  | entries => [.mark .dictClose]

/-- Once a phrase is read, what is left has no keys that were not there before. -/
theorem Derives.keys_sublist (hts : Derives T f ts T') (st : List Expected) (rest : List Token) :
    (keys st rest).Sublist (keys (f.expected :: st) (ts ++ (f.closing ++ rest))) := by
  induction hts generalizing st rest with
  | quote _ ih => exact ih st rest
  | fullQuote _ ih => exact ih st rest
  | list _ ih =>
    rw [List.cons_append, List.append_assoc]
    exact ih st rest
  | dict _ ih =>
    rw [List.cons_append, List.append_assoc]
    exact ih st rest
  | @block _ _ _ _ name _ _ _ ps es bs hname _ _ _ _ _ ih₁ ih₂ ih₃ =>
    have hps := ih₁ (.value :: .value :: .blockEnd :: st) (es ++ (bs ++ .mark .blockClose :: rest))
    have hes := ih₂ (.value :: .blockEnd :: st) (bs ++ .mark .blockClose :: rest)
    have hbs := ih₃ (.blockEnd :: st) (.mark .blockClose :: rest)
    simp only [List.cons_append, List.append_assoc, List.nil_append, Phrase.closing,
      Phrase.expected]
      at hps hes hbs ⊢
    have hchain := (hbs.trans hes).trans hps
    obtain rfl | ⟨text, rfl⟩ := hname
    · exact hchain
    · exact hchain
  | noItem => exact .refl _
  | @item _ _ _ _ _ ts ts' hts _ ih₁ ih₂ =>
    have hone := ih₁ (.items :: st) (ts' ++ (.mark .listClose :: rest))
    have hmore := ih₂ st rest
    rw [List.append_assoc]
    refine hmore.trans ?_
    show (keys (.items :: st) (ts' ++ (.mark .listClose :: rest))).Sublist _
    exact (hts.keys_items st _).symm ▸ hone
  | noEntry => exact .refl _
  | @entry _ _ _ _ ts ts' key _ _ ih₁ ih₂ =>
    have hone := ih₁ (.entries :: st) (ts' ++ (.mark .dictClose :: rest))
    have hmore := ih₂ st rest
    rw [List.cons_append, List.append_assoc]
    exact .cons key (hmore.trans hone)
  | _ => exact .refl _

end DictScript
