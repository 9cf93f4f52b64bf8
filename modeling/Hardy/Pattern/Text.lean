import Hardy.Grammar
import Hardy.Pattern.Canonical
import Mathlib.Data.Nat.Digits.Defs

/-!
# The text of patterns

Model of `eid-patterns/src/parse.rs` and of the parsers and `Display` of the two
schemes.  A text is its bytes: every character that a pattern may have is ASCII.
What `glob::Pattern::new` takes is a parameter.
-/

namespace Hardy

open Cbor Grammar

/-- `glob::Pattern::new` takes the text. -/
class GlobSyntax where
  accepts : Bytes → Bool

/-! ## Numbers -/

def isDigit (b : UInt8) : Bool := 0x30 ≤ b && b ≤ 0x39

def isNonZeroDigit (b : UInt8) : Bool := 0x31 ≤ b && b ≤ 0x39

def numeral (digits : Bytes) : Nat := digits.foldl (fun v d => v * 10 + (d.toNat - 0x30)) 0

def parseNonZeroDecimal (limit : Nat) : Parser UInt8 Nat :=
  bind (oneOf isNonZeroDigit) fun first =>
    tryMap (fun digits =>
        if numeral (first :: digits) < limit then some (numeral (first :: digits)) else none)
      (takeWhile isDigit)

def decUint : Parser UInt8 Nat :=
  alt (parseNonZeroDecimal (2 ^ 32)) (map (fun _ => 0) (literal [0x30]))

def decimal (n : Nat) : Bytes :=
  if n = 0 then [0x30] else (Nat.digits 10 n).reverse.map fun d => UInt8.ofNat (0x30 + d)

/-! ## The `ipn` scheme -/

namespace IpnPattern

def parseInterval : Parser UInt8 (Nat × Nat) :=
  bind decUint fun start =>
    map (fun stop => (min start (stop.getD start), max start (stop.getD start)))
      (opt (alt (map (fun _ => Eid.u32Max) (literal [0x2B])) (preceded [0x2D] decUint)))

/-- `sort_by_key(|r| *r.start())` is stable, as insertion is. -/
def sortByStart (intervals : List (Nat × Nat)) : List (Nat × Nat) :=
  intervals.insertionSort fun i j => i.1 ≤ j.1

def ofIntervals : List IpnInterval → IpnPattern
  | [.number n] => .single n
  | merged => .range merged

/-- The closure of `parse_ipn_range`. -/
def merge (intervals : List (Nat × Nat)) : IpnPattern :=
  match sortByStart intervals with
  | [] => .range []
  | first :: rest => ofIntervals ((Intervals.coalesce first rest).map IpnInterval.ofBounds)

def parseRange : Parser UInt8 IpnPattern :=
  map merge (preceded [0x5B] (terminated (separated parseInterval 0x2C) [0x5D]))

def parsePart : Parser UInt8 IpnPattern :=
  alt (map (fun _ => .wildcard) (literal [0x2A])) (alt (map .single decUint) parseRange)

end IpnPattern

def IpnPatternItem.any : IpnPatternItem := ⟨.wildcard, .wildcard, .wildcard⟩

/-- `"ipn:"` -/
def ipnColon : Bytes := [0x69, 0x70, 0x6E, 0x3A]

namespace IpnPatternItem

open IpnPattern

/-- Two numbers are a node and a service without an allocator. -/
def ofParts (a b : IpnPattern) : Option IpnPattern → IpnPatternItem
  | some c => ⟨a, b, c⟩
  | none => ⟨.single 0, a, b⟩

def parseParts : Parser UInt8 IpnPatternItem :=
  bind parsePart fun a => bind (preceded [0x2E] parsePart) fun b =>
    map (ofParts a b) (opt (preceded [0x2E] parsePart))

def parse : Parser UInt8 IpnPatternItem :=
  preceded ipnColon <|
    alt (map (fun _ => any) (literal [0x2A, 0x2A])) <|
    alt (map (fun c => ⟨.single 0, .single Eid.u32Max, c⟩) (preceded [0x21, 0x2E] parsePart))
      parseParts

end IpnPatternItem

/-! ## The `dtn` scheme -/

/-- `"dtn:"` -/
def dtnColon : Bytes := [0x64, 0x74, 0x6E, 0x3A]

/-- `['?', '*', '[']` -/
def isWild (b : UInt8) : Bool := b == 0x3F || b == 0x2A || b == 0x5B

def isDemux (b : UInt8) : Bool := (0x21 ≤ b && b ≤ 0x7B) || b == 0x7D || b == 0x7E

def isNodeName (b : UInt8) : Bool := Eid.isRegname b && b != 0x2A

def isNodeGlob (b : UInt8) : Bool := Eid.isRegname b || b == 0x5B || b == 0x3F

section

variable [Crates]

def decodeUtf8 (text : Bytes) : Option Bytes :=
  if validUtf8 (Crates.percentDecode text) then some (Crates.percentDecode text) else none

/-- `parse_regname` -/
def parseNodeName : Parser UInt8 Bytes := tryMap decodeUtf8 (takeWhile isNodeName)

namespace DtnPatternItem

variable [GlobSyntax]

def newGlob (pattern : Bytes) : Option DtnPatternItem :=
  (decodeUtf8 pattern).bind fun text =>
    if GlobSyntax.accepts text then some (.glob text) else Option.none

def ofExact (nodeName demux : Bytes) : Option DtnPatternItem :=
  if demux.any isWild then (decodeUtf8 demux).bind fun d => newGlob (nodeName ++ 0x2F :: d)
  else some (.exact nodeName demux)

def parseExactSsp : Parser UInt8 DtnPatternItem :=
  bind (terminated parseNodeName [0x2F]) fun nodeName =>
    tryMap (ofExact nodeName) (takeWhile isDemux)

def ofGlob (nodeName demux : Bytes) : Option DtnPatternItem :=
  (decodeUtf8 nodeName).bind fun n => (decodeUtf8 demux).bind fun d => newGlob (n ++ 0x2F :: d)

def parseGlob : Parser UInt8 DtnPatternItem :=
  bind (terminated (takeWhile isNodeGlob) [0x2F]) fun nodeName =>
    tryMap (ofGlob nodeName) (takeWhile isDemux)

def parse : Parser UInt8 DtnPatternItem :=
  preceded dtnColon <|
    alt (map (fun _ => DtnPatternItem.none) (literal Eid.noneText)) <|
    alt (map (fun _ => DtnPatternItem.any) (literal [0x2A, 0x2A]))
      (preceded [0x2F, 0x2F] (alt parseExactSsp parseGlob))

end DtnPatternItem

end

/-! ## Patterns -/

def isAlpha (b : UInt8) : Bool := (0x41 ≤ b && b ≤ 0x5A) || (0x61 ≤ b && b ≤ 0x7A)

def isSchemeChar (b : UInt8) : Bool :=
  isAlpha b || isDigit b || b == 0x2B || b == 0x2D || b == 0x2E

/-- `":**"` -/
def anySsp : Bytes := [0x3A, 0x2A, 0x2A]

/-- `"*:**"` -/
def anyText : Bytes := [0x2A, 0x3A, 0x2A, 0x2A]

namespace EidPatternItem

def ofTextScheme (scheme : Bytes) : EidPatternItem :=
  if scheme = dtnScheme then .dtn .any
  else if scheme = ipnScheme then .ipn .any
  else .anyTextScheme scheme

def ofNumericScheme (scheme : Nat) : EidPatternItem :=
  if scheme = 1 then .dtn .any
  else if scheme = 2 then .ipn .any
  else .anyNumericScheme scheme

def parseScheme : Parser UInt8 EidPatternItem :=
  bind (oneOf isAlpha) fun first =>
    map (fun rest => ofTextScheme (first :: rest)) (takeWhile isSchemeChar)

def parseAnySspItem : Parser UInt8 EidPatternItem :=
  terminated (alt parseScheme (map ofNumericScheme (parseNonZeroDecimal (2 ^ 64)))) anySsp

def parse [Crates] [GlobSyntax] : Parser UInt8 EidPatternItem :=
  alt (alt (map .ipn IpnPatternItem.parse) (map .dtn DtnPatternItem.parse)) parseAnySspItem

end EidPatternItem

def EidPattern.fromStr [Crates] [GlobSyntax] (s : Bytes) : Option EidPattern :=
  whole (alt (map (fun _ => .any) (literal anyText))
    (map .set (separated EidPatternItem.parse 0x7C))) s

/-! ## Display -/

def IpnInterval.display : IpnInterval → Bytes
  | .number n => decimal n
  | .range s e => if e = Eid.u32Max then decimal s ++ [0x2B] else decimal s ++ 0x2D :: decimal e

def IpnPattern.display : IpnPattern → Bytes
  | .wildcard => [0x2A]
  | .single n => decimal n
  | .range [.number n] => decimal n
  | .range l => 0x5B :: ([0x2C].intercalate (l.map IpnInterval.display) ++ [0x5D])

def IpnPatternItem.display (i : IpnPatternItem) : Bytes :=
  if i = any then [0x2A, 0x2A]
  else if i.allocatorId = .single 0 then i.nodeNumber.display ++ 0x2E :: i.serviceNumber.display
  else i.allocatorId.display ++ 0x2E :: (i.nodeNumber.display ++ 0x2E :: i.serviceNumber.display)

def replaceEscape (h l c : UInt8) : Bytes → Bytes
  | 0x25 :: x :: y :: r =>
    if x = h ∧ y = l then c :: replaceEscape h l c r
    else 0x25 :: replaceEscape h l c (x :: y :: r)
  | b :: r => b :: replaceEscape h l c r
  | [] => []

section

variable [Crates]

/-- The text of a glob, with `*`, `/`, `?`, `[` and `]` as they are. -/
def displayGlob (pattern : Bytes) : Bytes :=
  replaceEscape 0x35 0x44 0x5D <| replaceEscape 0x35 0x42 0x5B <| replaceEscape 0x33 0x46 0x3F <|
    replaceEscape 0x32 0x46 0x2F <| replaceEscape 0x32 0x41 0x2A <| Crates.percentEncode pattern

def DtnPatternItem.display : DtnPatternItem → Bytes
  | .none => Eid.noneText
  | .any => [0x2A, 0x2A]
  | .exact nodeName demux => 0x2F :: 0x2F :: (Crates.percentEncode nodeName ++ 0x2F :: demux)
  | .glob pattern => 0x2F :: 0x2F :: displayGlob pattern

def EidPatternItem.display : EidPatternItem → Bytes
  | .ipn i => ipnColon ++ i.display
  | .dtn i => dtnColon ++ i.display
  | .anyNumericScheme v => decimal v ++ anySsp
  | .anyTextScheme v => v ++ anySsp

def EidPattern.display : EidPattern → Bytes
  | .any => anyText
  | .set items => [0x7C].intercalate (items.map EidPatternItem.display)

end

end Hardy
