/-!
Runtime errors: what went wrong, and the call frames that were active.
-/
namespace DictScript

inductive Malformed where
  | notAnArray
  | badText
  | trailing (count : Nat)
  | ended
  | missing (mark : String)
  | expected (mark : String)
  | unexpected (token : String)
  | notAKey (token : String)
  | blockName (token : String)
  | blockParams (value : String)
  | paramNotASymbol
  | blockEnv (value : String)
  | blockBody (value : String)
  | dangling (token : String)
  | unknown (token : String)
deriving DecidableEq, Repr

inductive Cause where
  | unbound (name : String) (suggestion : Option String)
  | wrongType (expected got : String)
  | notApplicable (type : String)
  | arity (name : String) (expected got : Nat)
  | cycle (name : String)
  | unregistered (tag : String)
  | duplicate (tag : String)
  | exhausted (limit : Nat)
  | nonFinite (number : String)
  | unfreezable (tag : String)
  | rootWithoutScope
  | unknownFunction (name : String)
  | host (message : String)
  | malformed (why : Malformed)
deriving DecidableEq, Repr

inductive Kind where
  | unboundIdentifier
  | typeMismatch
  | arityMismatch
  | cycle
  | unregisteredTag
  | duplicateRegistration
  | stackExhaustion
  | malformedFrozen
deriving DecidableEq, Repr

def Malformed.message : Malformed → String
  | notAnArray => "expected a token array"
  | badText => "not a JSON text"
  | trailing count => s!"{count} trailing token(s)"
  | ended => "unexpected end of input"
  | missing mark => s!"missing `{mark}`"
  | expected mark => s!"expected `{mark}`"
  | unexpected token => s!"unexpected token {token}"
  | notAKey token => s!"expected a key, got {token}"
  | blockName token => s!"bad block name {token}"
  | blockParams value => s!"bad block parameters {value}"
  | paramNotASymbol => "block parameters must be symbols"
  | blockEnv value => s!"bad block environment {value}"
  | blockBody value => s!"bad block body {value}"
  | dangling token => s!"dangling reference {token}"
  | unknown token => s!"unknown token {token}"

namespace Cause

def kind : Cause → Kind
  | unbound _ _ => .unboundIdentifier
  | arity _ _ _ => .arityMismatch
  | cycle _ => .cycle
  | unregistered _ => .unregisteredTag
  | duplicate _ => .duplicateRegistration
  | exhausted _ => .stackExhaustion
  | malformed _ => .malformedFrozen
  | _ => .typeMismatch

def message : Cause → String
  | unbound name none => s!"unbound identifier {name}"
  | unbound name (some other) => s!"unbound identifier {name} (did you mean `{other}`?)"
  | wrongType expected got => s!"type error: expected {expected}, got {got}"
  | notApplicable type => s!"cannot apply {type}"
  | arity name expected got => s!"{name} expects {expected} argument(s), got {got}"
  | cycle name => s!"dictionary {name} cannot become its own ancestor"
  | unregistered tag => s!"no defroster registered for native tag `{tag}`"
  | duplicate tag => s!"initialization failure: defroster `{tag}` registered multiple times"
  | exhausted limit => s!"stack exhausted: nesting deeper than {limit}"
  | nonFinite number => s!"cannot freeze non-finite number {number}"
  | unfreezable tag => s!"cannot freeze native {tag}"
  | rootWithoutScope => "cannot thaw the root environment without a scope"
  | unknownFunction name => s!"unknown native function `{name}`"
  | host message => message
  | malformed why => "malformed frozen data: " ++ why.message

end Cause

structure RuntimeError where
  cause : Cause
  /-- The call frames, innermost first, as they were closest to the failure. -/
  dump : Option String
deriving DecidableEq, Repr

namespace RuntimeError

def of (cause : Cause) : RuntimeError := ⟨cause, none⟩

def malformed (why : Malformed) : RuntimeError := of (.malformed why)

def message (e : RuntimeError) : String := e.cause.message

def report (e : RuntimeError) : String :=
  match e.dump with
  | none => e.message
  | some dump => e.message ++ "\n" ++ dump

end RuntimeError
end DictScript
