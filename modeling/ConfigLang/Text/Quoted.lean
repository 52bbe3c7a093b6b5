import ConfigLang.Text.Printable

/-!
# Quoted text

The form in which a text stands inside a shown slice: between double quotes, with a backslash
escape for the quote, the backslash, the common controls and every character without a visible
form of its own.
-/

namespace ConfigLang.Text

/-- The digit that stands for `n`, below sixteen, in lower-case hexadecimal. -/
def hexDigit (n : Nat) : Char :=
  if n < 10 then Char.ofNat (48 + n) else Char.ofNat (87 + n)

/-- The hexadecimal digits of `n`, at least `width` of them, in front of `digits`. -/
def hexDigits (width n : Nat) (digits : List Char) : List Char :=
  if h : n = 0 then List.replicate width '0' ++ digits
  else hexDigits (width - 1) (n / 16) (hexDigit (n % 16) :: digits)
termination_by n
decreasing_by exact Nat.div_lt_self (Nat.pos_of_ne_zero h) (by decide)

/-- How one character is written between the quotes. -/
def quotedChar (c : Char) : List Char :=
  match c with
  | '\x22' => ['\\', '\x22']
  | '\\' => ['\\', '\\']
  | '\n' => ['\\', 'n']
  | '\r' => ['\\', 'r']
  | '\t' => ['\\', 't']
  | '\x00' => ['\\', '0']
  | c =>
    if isVisible c then [c]
    else ['\\', 'u', '{'] ++ hexDigits 1 c.toNat [] ++ ['}']

/-- The text between double quotes. -/
def quoted (s : String) : String :=
  String.ofList ('\x22' :: s.toList.flatMap quotedChar ++ ['\x22'])

end ConfigLang.Text
