import CampaignRules.Json.Basic
import CampaignRules.Utf8

/-! # Tokens of a JSON text

A text is cut into brackets, commas, colons, texts in quotes and words; a word is a number or one
of the three names. What is no token ends the list with `broken`, so a reader that has what it
needs earlier never meets it. A NUL between tokens ends the text: what stands behind it is not
read. -/

namespace CampaignRules.Json

inductive Token where
  | openArray
  | closeArray
  | openObject
  | closeObject
  | comma
  | colon
  | text (s : Bytes)
  | scalar (v : Json)
  /-- a number too large for binary64 -/
  | tooLarge
  | broken

namespace Token

def isHighSurrogate (n : Nat) : Bool :=
  0xD800 ≤ n && n ≤ 0xDBFF

def isLowSurrogate (n : Nat) : Bool :=
  0xDC00 ≤ n && n ≤ 0xDFFF

/-- The value of four hexadecimal digits. -/
def codeUnit? (a b c d : UInt8) : Option Nat := do
  let a ← Bytes.hexValue? a
  let b ← Bytes.hexValue? b
  let c ← Bytes.hexValue? c
  let d ← Bytes.hexValue? d
  some (((a * 16 + b) * 16 + c) * 16 + d)

/-- The byte that a one-letter escape stands for. -/
def shortEscape? (b : UInt8) : Option UInt8 :=
  if b = '"'.toUInt8 || b = '\\'.toUInt8 || b = '/'.toUInt8 then some b
  else if b = 'b'.toUInt8 then some 8
  else if b = 'f'.toUInt8 then some 12
  else if b = 'n'.toUInt8 then some 10
  else if b = 'r'.toUInt8 then some 13
  else if b = 't'.toUInt8 then some 9
  else none

/-- What stands between the quotes, with its escapes replaced. Control characters and surrogates
without a partner are refused. -/
def unescape? : Bytes → Option Bytes
  | [] => some []
  | 0x5C :: 0x75 :: a :: b :: c :: d :: rest =>
    match codeUnit? a b c d with
    | none => none
    | some high =>
      if isLowSurrogate high then none
      else if isHighSurrogate high then
        match rest with
        | 0x5C :: 0x75 :: a :: b :: c :: d :: rest =>
          match codeUnit? a b c d with
          | none => none
          | some low =>
            if isLowSurrogate low then
              let scalar := 0x10000 + (high - 0xD800) * 0x400 + (low - 0xDC00)
              (unescape? rest).map (Utf8.encode (Char.ofNat scalar) ++ ·)
            else none
        | _ => none
      else (unescape? rest).map (Utf8.encode (Char.ofNat high) ++ ·)
  | 0x5C :: b :: rest =>
    match shortEscape? b with
    | some c => (unescape? rest).map (c :: ·)
    | none => none
  | b :: rest => if b < 0x20 || b = 0x5C then none else (unescape? rest).map (b :: ·)

def ofQuoted (body : Bytes) : Token :=
  if Utf8.isValid body then
    match unescape? body with
    | some s => .text s
    | none => .broken
  else .broken

/-- A whole number: unsigned without a sign and signed with one, as long as it fits into 64 bits. -/
def whole? (negative : Bool) (digits : Bytes) : Option Json :=
  let n := Bytes.decimalValue digits
  if negative then
    if n ≤ power 2 63 then some (.signed (Int64.ofInt (-n))) else none
  else if n < power 2 64 then some (.unsigned n.toUInt64)
  else none

def ofFloat (x : Float) : Token :=
  match Binary64.ofFloat x with
  | .finite .. => .scalar (.float x)
  | _ => .tooLarge

/-- The digits after a point or an exponent sign; there has to be one. -/
def digits? (text : Bytes) : Option (Bytes × Bytes) :=
  let digits := text.takeWhile Bytes.isDigit
  if digits.isEmpty then none else some (digits, text.dropWhile Bytes.isDigit)

/-- The whole part of a number has no leading zero. -/
def wholeDigits? : Bytes → Option (Bytes × Bytes)
  | [] => none
  | b :: rest => if b = '0'.toUInt8 then some ([b], rest) else digits? (b :: rest)

/-- The digits of a fraction, none if there is no point. -/
def fractionDigits? : Bytes → Option (Bytes × Bytes)
  | [] => some ([], [])
  | b :: rest => if b = '.'.toUInt8 then digits? rest else some ([], b :: rest)

/-- The written exponent, if there is one. -/
def exponent? : Bytes → Option (Option Int × Bytes)
  | [] => some (none, [])
  | b :: rest =>
    if b = 'e'.toUInt8 || b = 'E'.toUInt8 then
      let (negative, rest) :=
        match rest with
        | [] => (false, [])
        | c :: after =>
          if c = '-'.toUInt8 then (true, after)
          else if c = '+'.toUInt8 then (false, after)
          else (false, c :: after)
      (digits? rest).map fun (digits, rest) =>
        let n := Bytes.decimalValue digits
        (some (if negative then -n else n), rest)
    else some (none, b :: rest)

/-- The number at the start of a word, and the rest of the word. -/
def number? (word : Bytes) : Option (Token × Bytes) := do
  let (negative, body) :=
    match word with
    | [] => (false, [])
    | b :: rest => if b = '-'.toUInt8 then (true, rest) else (false, b :: rest)
  let (whole, rest) ← wholeDigits? body
  let (fraction, rest) ← fractionDigits? rest
  let (exponent, rest) ← exponent? rest
  let asFloat :=
    ofFloat (Binary64.ofDecimal negative (Bytes.decimalValue (whole ++ fraction))
      (exponent.getD 0 - fraction.length))
  if fraction.isEmpty && exponent.isNone then
    match whole? negative whole with
    | some v => some (.scalar v, rest)
    | none => some (asFloat, rest)
  else some (asFloat, rest)

/-- What a word is if it starts with a name, and the rest of the word. -/
def named? (word : Bytes) : Option (Json × Bytes) :=
  let names : List (Bytes × Json) := [("null", .null), ("true", .bool true), ("false", .bool false)]
  names.findSome? fun (name, v) =>
    if name.isPrefixOf word then some (v, word.drop name.length) else none

/-- The scalar at the start of a word, and the rest of the word. -/
def scalar? (word : Bytes) : Option (Token × Bytes) :=
  match named? word with
  | some (v, rest) => some (.scalar v, rest)
  | none => number? word

/-- A word is one scalar. If more follows in the same word, nothing can be made of it, as no scalar
may stand right behind another. -/
def ofWord (word : Bytes) : List Token :=
  match scalar? word with
  | some (token, []) => [token]
  | some (token, _ :: _) => [token, .broken]
  | none => [.broken]

/-- Between tokens, inside a word, or inside quotes, where a backslash escapes the next byte; what
was read of a word or text is in reverse. -/
inductive Place where
  | between
  | word (read : Bytes)
  | quoted (read : Bytes) (escaped : Bool)

def punctuation? (b : UInt8) : Option Token :=
  if b = '['.toUInt8 then some .openArray
  else if b = ']'.toUInt8 then some .closeArray
  else if b = '\x7b'.toUInt8 then some .openObject
  else if b = '\x7d'.toUInt8 then some .closeObject
  else if b = ','.toUInt8 then some .comma
  else if b = ':'.toUInt8 then some .colon
  else none

def isBlank (b : UInt8) : Bool :=
  b = ' '.toUInt8 || b = 9 || b = 10 || b = 13

def scan : Place → Bytes → List Token
  | .between, [] => []
  | .word read, [] => ofWord read.reverse
  | .quoted .., [] => [.broken]
  | .quoted read escaped, b :: rest =>
    if escaped then scan (.quoted (b :: read) false) rest
    else if b = '"'.toUInt8 then ofQuoted read.reverse :: scan .between rest
    else scan (.quoted (b :: read) (b = '\\'.toUInt8)) rest
  | .between, b :: rest =>
    if b = 0 then []
    else if isBlank b then scan .between rest
    else if b = '"'.toUInt8 then scan (.quoted [] false) rest
    else
      match punctuation? b with
      | some token => token :: scan .between rest
      | none => scan (.word [b]) rest
  | .word read, b :: rest =>
    if b = 0 then ofWord read.reverse
    else if isBlank b then ofWord read.reverse ++ scan .between rest
    else if b = '"'.toUInt8 then ofWord read.reverse ++ scan (.quoted [] false) rest
    else
      match punctuation? b with
      | some token => ofWord read.reverse ++ token :: scan .between rest
      | none => scan (.word (b :: read)) rest

/-- The tokens of a text; a byte order mark in front of it is skipped. -/
def ofText : Bytes → List Token
  | 0xEF :: 0xBB :: 0xBF :: rest => scan .between rest
  | other => scan .between other

end Token

end CampaignRules.Json
