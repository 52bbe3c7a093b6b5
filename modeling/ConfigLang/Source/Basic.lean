import ConfigLang.Host

/-!
# Sources

Where included documents come from. A source reads whole files and answers requests to the web;
an answer with an error status is an answer. It is told how deep the include that asks is nested;
the includes of the document at hand are at level one.
-/

namespace ConfigLang

/-- Why a location gives no content. -/
inductive FetchError where
  | notFound (path : String)
  | unreadable (path : String) (fault : FileFault)
  | status (code : Nat)
  | unsupportedScheme (scheme : String)
  | noTransport (url : String)
  | noRoute (url : String)
deriving DecidableEq, Repr

/-- The wording of a fetch error. -/
def FetchError.message : FetchError → String
  | notFound path => "not found: " ++ path
  | unreadable path fault => "read error: " ++ path ++ ": " ++ fault.message
  | status code => "HTTP status " ++ toString code
  | unsupportedScheme scheme => "unsupported: scheme '" ++ scheme ++ "'"
  | noTransport url => "unsupported: " ++ url ++ " (built without the `http` feature)"
  | noRoute url => "network error: no route to " ++ url

/-- The error of a file that cannot be read. -/
def FetchError.ofFault (path : String) : FileFault → FetchError
  | .notFound => notFound path
  | fault => unreadable path fault

/-- The answer to a request to the web. -/
structure Response where
  status : Nat
  body : ByteArray

/-- A source of documents, which answers in a monad. -/
structure Source (m : Type → Type) where
  read : (level : Nat) → (path : String) → m (Except FetchError ByteArray)
  get : (level : Nat) → (url : String) → m (Except FetchError Response)

end ConfigLang
