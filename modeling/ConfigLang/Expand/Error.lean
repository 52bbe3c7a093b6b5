import ConfigLang.Eval.Error
import ConfigLang.Parse.Error
import ConfigLang.Source.Basic
import ConfigLang.Tree.Basic

/-!
# Expansion errors

Why the directives of a document cannot be run.
-/

namespace ConfigLang

/-- What can be wrong with the arguments of a directive. -/
inductive DirectiveFault where
  | tooMany (limit : Nat)
  | unknownParameter (name : String)
  | givenTwice (name : String)
  | missing (name : String)
  | notExpression (parameter : String)
  | isBlock (parameter : String)
  | notText (parameter : String) (found : Value.Kind)
  | notBool (parameter : String) (found : Value.Kind)
  | notTexts (parameter : String)
  | notFragment (name : String)
  | notDepth (value : Value)
  | unknownMethod (name : String)
deriving Repr

/-- The wording of a fault of the arguments of a directive. -/
def DirectiveFault.message : DirectiveFault → String
  | tooMany limit => "expected at most " ++ toString limit ++ " arguments"
  | unknownParameter name => "unknown parameter '" ++ name ++ "'"
  | givenTwice name => "parameter '" ++ name ++ "' is given twice"
  | missing name => "missing argument '" ++ name ++ "'"
  | notExpression parameter => parameter ++ " must be an expression"
  | isBlock parameter => parameter ++ " cannot be a block"
  | notText parameter found => parameter ++ " must be text, got " ++ found.name
  | notBool parameter found => parameter ++ " must be bool, got " ++ found.name
  | notTexts parameter => parameter ++ " must be a slice of text"
  | notFragment name => "fragment must be a block or an expression, got '" ++ name ++ "'"
  | notDepth value => "depth must be a non-negative int, got " ++ value.toText
  | unknownMethod name => "unknown method '" ++ name ++ "'"

/-- Why an include gives no document. -/
inductive IncludeFault where
  | tooDeep (limit : Nat)
  | fetch (error : FetchError)
  | notUtf8
deriving DecidableEq, Repr

/-- The wording of an include fault. -/
def IncludeFault.message : IncludeFault → String
  | tooDeep limit => "includes nested deeper than " ++ toString limit ++ " levels"
  | fetch error => error.message
  | notUtf8 => "content is not valid UTF-8"

/-- Why the directives of a document cannot be run. -/
inductive ExpansionError where
  | argument (directive : DirectiveKind) (fault : DirectiveFault) (position : Position)
  | undefinedFragment (name : String) (position : Position)
  | unresolved (location : String) (fault : IncludeFault)
  | parse (location : String) (error : ParseError)
  | eval (error : EvalError)
deriving Repr

/-- The wording of an expansion error. -/
def ExpansionError.message : ExpansionError → String
  | argument directive fault position =>
    position.toText ++ ": ." ++ directive.name ++ "(): " ++ fault.message
  | undefinedFragment name position =>
    position.toText ++ ": fragment '" ++ name ++ "' is not defined"
  | unresolved location fault => "cannot include '" ++ location ++ "': " ++ fault.message
  | parse location error => "in '" ++ location ++ "': " ++ error.message
  | eval error => error.message

end ConfigLang
