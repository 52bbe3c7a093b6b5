/-!
# Base64

Bytes as text over an alphabet of 64 symbols, padded with `=` to groups of four. Reading is
strict: the padding is required, and the bits of the last symbol that carry no data are zero.
-/

namespace ConfigLang.Text.Base64

/-- The two alphabets differ in the symbols of 62 and 63. -/
inductive Alphabet where
  | standard
  | urlSafe
deriving DecidableEq, Repr

/-- The last two symbols of an alphabet. -/
def Alphabet.last : Alphabet → Char × Char
  | .standard => ('+', '/')
  | .urlSafe => ('-', '_')

/-- The symbol that stands for `n`, below 64. -/
def Alphabet.symbol (a : Alphabet) (n : Nat) : Char :=
  if n < 26 then Char.ofNat (65 + n)
  else if n < 52 then Char.ofNat (97 + (n - 26))
  else if n < 62 then Char.ofNat (48 + (n - 52))
  else if n = 62 then a.last.1
  else a.last.2

/-- What a byte stands for, if it is a symbol of the alphabet. -/
def Alphabet.digit? (a : Alphabet) (b : UInt8) : Option Nat :=
  let n := b.toNat
  if 65 ≤ n ∧ n ≤ 90 then some (n - 65)
  else if 97 ≤ n ∧ n ≤ 122 then some (n - 97 + 26)
  else if 48 ≤ n ∧ n ≤ 57 then some (n - 48 + 52)
  else if n = a.last.1.toNat then some 62
  else if n = a.last.2.toNat then some 63
  else none

/-- The symbols of a list of bytes, three bytes to a group. -/
def encodeBytes (a : Alphabet) : List UInt8 → List Char
  | [] => []
  | [x] =>
    let n := x.toNat <<< 16
    [a.symbol (n >>> 18), a.symbol ((n >>> 12) % 64), '=', '=']
  | [x, y] =>
    let n := (x.toNat <<< 16) + (y.toNat <<< 8)
    [a.symbol (n >>> 18), a.symbol ((n >>> 12) % 64), a.symbol ((n >>> 6) % 64), '=']
  | x :: y :: z :: rest =>
    let n := (x.toNat <<< 16) + (y.toNat <<< 8) + z.toNat
    a.symbol (n >>> 18) :: a.symbol ((n >>> 12) % 64) :: a.symbol ((n >>> 6) % 64) ::
      a.symbol (n % 64) :: encodeBytes a rest

/-- The padded form of the UTF-8 bytes of a text. -/
def encode (a : Alphabet) (s : String) : String :=
  String.ofList (encodeBytes a s.toUTF8.data.toList)

/-- Why a text is not a padded form. Offsets count bytes. -/
inductive Fault where
  | symbol (byte : UInt8) (offset : Nat)
  | length (length : Nat)
  | lastSymbol (byte : UInt8) (offset : Nat)
  | padding
deriving DecidableEq, Repr

/-- The wording of a fault. -/
def Fault.message : Fault → String
  | .symbol byte offset =>
    "Invalid symbol " ++ toString byte.toNat ++ ", offset " ++ toString offset ++ "."
  | .length n => "Invalid input length: " ++ toString n
  | .lastSymbol byte offset =>
    "Invalid last symbol " ++ toString byte.toNat ++ ", offset " ++ toString offset ++ "."
  | .padding => "Invalid padding"

/-- The byte `=`. -/
def pad : UInt8 := 61

/-- The digits of a last group, which may end in padding from its third place on; with them the
number of paddings. `offset` is where the group starts, `seen` is what it held so far. -/
private def lastGroup (a : Alphabet) (offset : Nat) (seen : List Nat) (pads : Nat) :
    List UInt8 → Except Fault (List Nat × Nat)
  | [] => .ok (seen, pads)
  | b :: bs =>
    if b = pad then
      if seen.length + pads < 2 then .error (.symbol b (offset + seen.length + pads))
      else lastGroup a offset seen (pads + 1) bs
    else if 0 < pads then .error (.symbol pad (offset + seen.length))
    else
      match a.digit? b with
      | some d => lastGroup a offset (seen ++ [d]) pads bs
      | none => .error (.symbol b (offset + seen.length))

/-- The bytes of up to four digits; the bits after the last whole byte are dropped. -/
private def groupBytes (digits : List Nat) : List UInt8 :=
  let n := (digits ++ List.replicate (4 - digits.length) 0).foldl (fun n d => n * 64 + d) 0
  [UInt8.ofNat (n >>> 16), UInt8.ofNat (n >>> 8), UInt8.ofNat n].take (digits.length * 6 / 8)

/-- The bits of the last digit that belong to no byte. -/
private def spareBits (digits : List Nat) : Nat :=
  match digits.length, digits.getLast? with
  | 2, some d => d % 16
  | 3, some d => d % 4
  | _, _ => 0

private def decodeLast (a : Alphabet) (offset : Nat) (group : List UInt8) :
    Except Fault (List UInt8) := do
  let (digits, pads) ← lastGroup a offset [] 0 group
  if digits.length < 2 then throw (.length (offset + digits.length))
  if (digits.length + pads) % 4 ≠ 0 then throw .padding
  if spareBits digits ≠ 0 then
    throw (.lastSymbol (group.getD (digits.length - 1) 0) (offset + digits.length - 1))
  return groupBytes digits

private def decodeFrom (a : Alphabet) (offset : Nat) : List UInt8 → Except Fault (List UInt8)
  | b₀ :: b₁ :: b₂ :: b₃ :: b₄ :: rest => do
    let digit (b : UInt8) (place : Nat) : Except Fault Nat :=
      match a.digit? b with
      | some d => .ok d
      | none => .error (.symbol b (offset + place))
    let d₀ ← digit b₀ 0
    let d₁ ← digit b₁ 1
    let d₂ ← digit b₂ 2
    let d₃ ← digit b₃ 3
    return groupBytes [d₀, d₁, d₂, d₃] ++ (← decodeFrom a (offset + 4) (b₄ :: rest))
  | group => decodeLast a offset group

/-- The bytes that a padded form stands for. A stray symbol at the end of a text of length
`4 k + 1` is reported before everything else. -/
def decode (a : Alphabet) (s : String) : Except Fault (List UInt8) :=
  let bytes := s.toUTF8.data.toList
  match bytes.getLast? with
  | none => .ok []
  | some b =>
    if bytes.length % 4 = 1 ∧ b ≠ pad ∧ (a.digit? b).isNone then
      .error (.symbol b (bytes.length - 1))
    else decodeFrom a 0 bytes

end ConfigLang.Text.Base64
