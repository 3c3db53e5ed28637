import CampaignRules.Json.Token

/-! # Reading a JSON text

The reader takes one token at a time. It keeps the containers that are still open, innermost
first, and knows from the last token what may come next. The first token that does not fit decides
the failure. -/

namespace CampaignRules.Json

/-- Why a JSON operation fails: a text is malformed, a value has another type than asked for, or a
number or a position lies outside its range. -/
inductive Failure where
  | malformed
  | wrongType
  | outOfRange
  deriving DecidableEq

def Failure.message : Failure → Bytes
  | .malformed => "[json.exception.parse_error]"
  | .wrongType => "[json.exception.type_error]"
  | .outOfRange => "[json.exception.out_of_range]"

namespace Reader

/-- A container that is not closed yet, with what it holds so far in reverse, and for an object the
key read last. -/
inductive Frame where
  | array (items : List Json)
  | object (members : List (Bytes × Json)) (key : Bytes)

/-- What the next token may be; after the whole document nothing more is needed. -/
inductive Expected where
  | value
  | itemOrClose
  | key
  | keyOrClose
  | colon
  | commaOrClose
  | nothing (document : Json)

end Reader

/-- The reader after some tokens. -/
structure Reader where
  expected : Reader.Expected
  frames : List Reader.Frame

namespace Reader

def start : Reader := ⟨.value, []⟩

/-- Puts a complete value where it belongs. -/
def complete (v : Json) : List Frame → Reader
  | [] => ⟨.nothing v, []⟩
  | .array items :: outer => ⟨.commaOrClose, .array (v :: items) :: outer⟩
  | .object members key :: outer => ⟨.commaOrClose, .object ((key, v) :: members) key :: outer⟩

def beginValue (frames : List Frame) : Token → Except Failure Reader
  | .scalar v => .ok (complete v frames)
  | .text s => .ok (complete (.string s) frames)
  | .openArray => .ok ⟨.itemOrClose, .array [] :: frames⟩
  | .openObject => .ok ⟨.keyOrClose, .object [] [] :: frames⟩
  | .tooLarge => .error .outOfRange
  | _ => .error .malformed

def beginMember : List Frame → Token → Except Failure Reader
  | .object members _ :: outer, .text key => .ok ⟨.colon, .object members key :: outer⟩
  | _, _ => .error .malformed

/-- Closes the innermost container, if it is of the kind that the token closes. -/
def close : List Frame → Token → Except Failure Reader
  | .array items :: outer, .closeArray => .ok (complete (.array items.reverse) outer)
  | .object members _ :: outer, .closeObject => .ok (complete (.object members.reverse) outer)
  | _, _ => .error .malformed

def step (reader : Reader) (token : Token) : Except Failure Reader :=
  match reader.expected, token with
  | .value, token => beginValue reader.frames token
  | .itemOrClose, .closeArray => close reader.frames token
  | .itemOrClose, token => beginValue reader.frames token
  | .key, token => beginMember reader.frames token
  | .keyOrClose, .closeObject => close reader.frames token
  | .keyOrClose, token => beginMember reader.frames token
  | .colon, .colon => .ok ⟨.value, reader.frames⟩
  | .commaOrClose, .comma =>
    match reader.frames with
    | .object .. :: _ => .ok ⟨.key, reader.frames⟩
    | _ => .ok ⟨.value, reader.frames⟩
  | .commaOrClose, token => close reader.frames token
  | _, _ => .error .malformed

/-- Reads tokens until the document is complete, and hands back those that are left. -/
def run : Reader → List Token → Except Failure (Json × List Token)
  | ⟨.nothing document, _⟩, rest => .ok (document, rest)
  | _, [] => .error .malformed
  | reader, token :: rest =>
    match reader.step token with
    | .ok next => run next rest
    | .error e => .error e

end Reader

/-- The value that a text spells, with the members of objects as they are written. -/
def parseRaw (text : Bytes) : Except Failure Json :=
  match Reader.start.run (Token.ofText text) with
  | .ok (document, []) => .ok document
  | .ok (_, _ :: _) => .error .malformed
  | .error e => .error e

def parse (text : Bytes) : Except Failure Json :=
  (parseRaw text).map canonical

/-- The first value of a text; what follows it is not read. -/
def parseFirst (text : Bytes) : Except Failure Json :=
  (Reader.start.run (Token.ofText text)).map fun (document, _) => document.canonical

end CampaignRules.Json
