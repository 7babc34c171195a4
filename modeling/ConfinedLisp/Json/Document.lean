import ConfinedLisp.Decimal.Style
import ConfinedLisp.Json.Skeleton

/-!
# JSON documents

What a JSON text denotes. Members of objects are in the order of their keys, and of members with the
same key the last one counts. A text denotes a document if its strings have no unpaired surrogates, its
numbers are in the range of doubles and its containers are nested at most 127 deep.
-/

namespace ConfinedLisp

namespace Json

/-- A JSON document. -/
inductive Document where
  | null
  | bool (b : Bool)
  | whole (n : Int)
  | float (x : Float)
  | string (s : String)
  | array (items : List Document)
  | object (members : List (String × Document))

/-- Of neighbours with the same key, keeps the last one. -/
def keepLast {α : Type} : List (String × α) → List (String × α)
  | m :: n :: rest => if m.1 = n.1 then keepLast (n :: rest) else m :: keepLast (n :: rest)
  | members => members

/-- Members in the order of their keys. Of members with the same key the last one counts. -/
def orderMembers {α : Type} (members : List (String × α)) : List (String × α) :=
  keepLast (members.mergeSort fun m n => decide (m.1 ≤ n.1))

/-- The greatest significand of a number; digits that would lead beyond it are left out. -/
def greatestSignificand : Nat := 18446744073709551615

/-- The greatest exponent that is read to its end. -/
def greatestExponent : Nat := 2147483647

/-- Appends digits to a significand while it stays in bounds: the significand, and how many digits were
left out. -/
def accumulate (significand : Nat) : List Char → Nat × Nat
  | [] => (significand, 0)
  | c :: rest =>
    let next := significand * 10 + (c.toNat - '0'.toNat)
    if greatestSignificand < next then (significand, rest.length + 1)
    else accumulate next rest

/-- The greatest power of ten that is a double. -/
def greatestPower : Float := Decimal.magnitude 1 308

/-- Divides a float by `10^k`, in steps that the range of doubles allows. -/
def scaleDown : Nat → Float → Nat → Float
  | 0, f, _ => f
  | fuel + 1, f, k =>
    if k ≤ 308 then f / Decimal.magnitude 1 k
    else if f == 0.0 then f
    else scaleDown fuel (f / greatestPower) (k - 308)

/-- The float of `significand · 10^exponent`, by one rounding of the significand and one of the product
or quotient; nothing if it is out of range. -/
def floatOf? (significand : Nat) (exponent : Int) : Option Float :=
  let f := Double.nearest significand 1
  if exponent < 0 then some (scaleDown (exponent.natAbs / 308 + 1) f exponent.natAbs)
  else if 308 < exponent then if significand = 0 then some 0.0 else none
  else
    let scaled := f * Decimal.magnitude 1 exponent
    if scaled.isInf then none else some scaled

/-- What a number denotes. -/
def NumberText.denote? (n : NumberText) : Option Document :=
  let (significand, dropped) := accumulate 0 n.whole
  let signed (x : Float) : Document := .float (if n.negative then -x else x)
  if n.fraction.isNone && n.exponent.isNone && dropped = 0 then
    if !n.negative then some (.whole significand)
    else if 0 < significand ∧ significand ≤ 9223372036854775808 then
      some (.whole (-(significand : Int)))
    else some (.float (-(Double.nearest significand 1)))
  else
    let fraction := n.fraction.getD []
    let (significand, skipped) := accumulate significand fraction
    let exponent : Int := (dropped : Int) - ((fraction.length - skipped : Nat) : Int)
    match n.exponent with
    | none => (floatOf? significand exponent).map signed
    | some (negative, ds) =>
      let e := Decimal.takeDigits (greatestExponent + 1) ds
      if greatestExponent < e then
        if significand = 0 ∨ negative then some (signed 0.0) else none
      else
        (floatOf? significand (if negative then exponent - e else exponent + e)).map signed

/-- Whether a code unit is the first half of a surrogate pair. -/
def isHighSurrogate (n : Nat) : Bool := 0xD800 ≤ n && n ≤ 0xDBFF

/-- Whether a code unit is the second half of a surrogate pair. -/
def isLowSurrogate (n : Nat) : Bool := 0xDC00 ≤ n && n ≤ 0xDFFF

/-- The characters that string units denote; nothing if a surrogate stands alone. -/
def denoteUnits? : List StringUnit → Option (List Char)
  | [] => some []
  | .char c :: rest => (denoteUnits? rest).map (c :: ·)
  | .code high :: .code low :: rest =>
    if isHighSurrogate high then
      if isLowSurrogate low then
        let c := Char.ofNat (0x10000 + (high - 0xD800) * 0x400 + (low - 0xDC00))
        (denoteUnits? rest).map (c :: ·)
      else none
    else if isLowSurrogate high then none
    else (denoteUnits? (.code low :: rest)).map (Char.ofNat high :: ·)
  | .code n :: rest =>
    if isHighSurrogate n || isLowSurrogate n then none
    else (denoteUnits? rest).map (Char.ofNat n :: ·)

/-- The text that string units denote. -/
def denoteString? (units : List StringUnit) : Option String :=
  (denoteUnits? units).map String.ofList

mutual

/-- The document of a tree whose containers are nested at most `room` deep. -/
def Document.ofSkeleton? (room : Nat) : Skeleton → Option Document
  | .null => some .null
  | .bool b => some (.bool b)
  | .number n => n.denote?
  | .string units => (denoteString? units).map .string
  | .array items =>
    match room with
    | 0 => none
    | room + 1 => (Document.ofItems? room items).map .array
  | .object members =>
    match room with
    | 0 => none
    | room + 1 => (Document.ofMembers? room members).map fun ms => .object (orderMembers ms)
termination_by structural v => v

/-- The documents of some trees. -/
def Document.ofItems? (room : Nat) : List Skeleton → Option (List Document)
  | [] => some []
  | v :: vs =>
    match Document.ofSkeleton? room v, Document.ofItems? room vs with
    | some d, some ds => some (d :: ds)
    | _, _ => none
termination_by structural vs => vs

/-- The members of an object, as written. -/
def Document.ofMembers? (room : Nat) :
    List (List StringUnit × Skeleton) → Option (List (String × Document))
  | [] => some []
  | m :: ms =>
    match Document.ofMember? room m, Document.ofMembers? room ms with
    | some n, some ns => some (n :: ns)
    | _, _ => none
termination_by structural ms => ms

/-- The member of a key and a tree. -/
def Document.ofMember? (room : Nat) : List StringUnit × Skeleton → Option (String × Document)
  | (units, v) =>
    match denoteString? units, Document.ofSkeleton? room v with
    | some key, some d => some (key, d)
    | _, _ => none
termination_by structural m => m

end

/-- How deep containers may be nested. -/
def deepestNesting : Nat := 127

/-- The document that a text denotes. -/
def Document.ofText? (s : String) : Option Document :=
  (Skeleton.ofText? s).bind (Document.ofSkeleton? deepestNesting)

/-- Floats in JSON are positional for leading exponents from -5 to 15, and never look like integers. -/
def floatStyle : Decimal.Style := ⟨some (-5, 15), true, true, .even⟩

/-- How a character is written in a JSON string. -/
def writeChar (c : Char) : List Char :=
  if c = '"' then ['\\', '"']
  else if c = '\\' then ['\\', '\\']
  else if c = '\x08' then ['\\', 'b']
  else if c = '\x0c' then ['\\', 'f']
  else if c = '\n' then ['\\', 'n']
  else if c = '\r' then ['\\', 'r']
  else if c = '\t' then ['\\', 't']
  else if c.toNat < 0x20 then
    ['\\', 'u', '0', '0', Nat.digitChar (c.toNat / 16), Nat.digitChar (c.toNat % 16)]
  else [c]

/-- A JSON string. -/
def writeString (s : String) : List Char := '"' :: s.toList.flatMap writeChar ++ ['"']

mutual

/-- The JSON text of a document, without gaps. -/
def Document.write : Document → List Char
  | .null => ['n', 'u', 'l', 'l']
  | .bool true => ['t', 'r', 'u', 'e']
  | .bool false => ['f', 'a', 'l', 's', 'e']
  | .whole n => Integer.chars n
  | .float x => (floatStyle.render x).toList
  | .string s => writeString s
  | .array items => '[' :: (List.intercalate [','] (Document.writeItems items)) ++ [']']
  | .object members =>
    '\x7b' :: (List.intercalate [','] (Document.writeMembers members)) ++ ['\x7d']

/-- The JSON texts of some documents. -/
def Document.writeItems : List Document → List (List Char)
  | [] => []
  | d :: ds => d.write :: Document.writeItems ds

/-- The JSON texts of some members. -/
def Document.writeMembers : List (String × Document) → List (List Char)
  | [] => []
  | m :: ms => Document.writeMember m :: Document.writeMembers ms

/-- The JSON text of a member. -/
def Document.writeMember : String × Document → List Char
  | (key, d) => writeString key ++ ':' :: d.write

end

/-- The JSON text of a document. -/
def Document.render (d : Document) : String := String.ofList d.write

end Json

end ConfinedLisp
