import Hardy.Eid

/-!
# Endpoint patterns

Model of `eid-patterns/src`: what a pattern matches, the order of patterns in a
route table (the more specific first), the inclusion test and the expansion of
the local node.  The text form of patterns is left out, and the matcher of the
`glob` crate is a parameter.
-/

namespace Hardy

deriving instance Ord for IpnNodeId
deriving instance Ord for Eid

/-- `glob::Pattern`, by its text: the match of `do_glob`, without case and with
literal separators. -/
class Globs where
  matchesWith : Bytes → Bytes → Bool

/-- The matches of the globs without metacharacters and in one case. -/
@[reducible] def Globs.literal : Globs := ⟨fun pattern text => pattern == text⟩

/-! ## The `ipn` scheme -/

/-- A `Range` is by its two inclusive ends. -/
inductive IpnInterval where
  | number (n : Nat)
  | range (start stop : Nat)
deriving DecidableEq, Repr

namespace IpnInterval

def cmp : IpnInterval → IpnInterval → Ordering
  | .number l, .number r => compare l r
  | .number l, .range s e => (compare l s).then (compare 0 (e - s))
  | .range s e, .number r => (compare s r).then (compare (e - s) 0)
  | .range s e, .range s' e' => (compare s s').then (compare (e - s) (e' - s'))

instance : Ord IpnInterval := ⟨cmp⟩

def «matches» (i : IpnInterval) (v : Nat) : Bool :=
  match i with
  | .number n => n == v
  | .range s e => s ≤ v && v ≤ e

def isSubset : IpnInterval → IpnInterval → Bool
  | .number l, .number r => l == r
  | .number l, .range s e => s ≤ l && l ≤ e
  | .range _ _, .number _ => false
  | .range s e, .range s' e' => s' ≤ s && e ≤ e'

def tryToU32 : IpnInterval → Option Nat
  | .number n => some n
  | .range _ _ => none

def count : IpnInterval → Nat
  | .number _ => 1
  | .range s e => e - s + 1

end IpnInterval

inductive IpnPattern where
  | wildcard
  | single (n : Nat)
  | range (intervals : List IpnInterval)
deriving DecidableEq, Ord, Repr

namespace IpnPattern

def «matches» (p : IpnPattern) (v : Nat) : Bool :=
  match p with
  | .wildcard => true
  | .single n => n == v
  | .range r => r.any (·.matches v)

def isSubset : IpnPattern → IpnPattern → Bool
  | _, .wildcard => true
  | .wildcard, _ => false
  | .single l, .single r => l == r
  | .single l, .range r => r.any (·.matches l)
  | .range _, .single _ => false
  | .range l, .range r => l.all fun i => r.any fun j => i.isSubset j

def tryToEid : IpnPattern → Option Nat
  | .single n => some n
  | .range [i] => i.tryToU32
  | _ => none

def isExact : IpnPattern → Bool
  | .single _ => true
  | .range [.number _] => true
  | _ => false

/-- `u64::BITS - (n - 1).leading_zeros()` is the number of bits of `n - 1`. -/
def literalBits : IpnPattern → Nat
  | .wildcard => 0
  | .single _ => 32
  | .range intervals =>
    let total := (intervals.map IpnInterval.count).sum
    if total ≤ 1 then 32 else 32 - (Nat.log2 (total - 1) + 1)

end IpnPattern

structure IpnPatternItem where
  allocatorId : IpnPattern
  nodeNumber : IpnPattern
  serviceNumber : IpnPattern
deriving DecidableEq, Ord, Repr

namespace IpnPatternItem

def new (allocatorId nodeNumber : Nat) (serviceNumber : Option Nat) : IpnPatternItem where
  allocatorId := .single allocatorId
  nodeNumber := .single nodeNumber
  serviceNumber := match serviceNumber with
    | some s => .single s
    | none => .wildcard

def «matches» (p : IpnPatternItem) : Eid → Bool
  | .null => p.allocatorId.matches 0 && p.nodeNumber.matches 0 && p.serviceNumber.matches 0
  | .localNode s =>
    p.allocatorId.matches 0 && p.nodeNumber.matches Eid.u32Max && p.serviceNumber.matches s
  | .legacyIpn fqnn s | .ipn fqnn s =>
    p.allocatorId.matches fqnn.allocatorId && p.nodeNumber.matches fqnn.nodeNumber &&
      p.serviceNumber.matches s
  | _ => false

def isSubset (p q : IpnPatternItem) : Bool :=
  p.allocatorId.isSubset q.allocatorId && p.nodeNumber.isSubset q.nodeNumber &&
    p.serviceNumber.isSubset q.serviceNumber

def expandLocalNode (p : IpnPatternItem) (nodeId : IpnNodeId) : Option IpnPatternItem :=
  if p.allocatorId = .single 0 ∧ p.nodeNumber = .single Eid.u32Max then
    some ⟨.single nodeId.allocatorId, .single nodeId.nodeNumber, p.serviceNumber⟩
  else none

def tryToEid (p : IpnPatternItem) : Option Eid := do
  let a ← p.allocatorId.tryToEid
  let n ← p.nodeNumber.tryToEid
  let s ← p.serviceNumber.tryToEid
  if a = 0 ∧ n = 0 then if s = 0 then some .null else none
  else if a = 0 ∧ n = Eid.u32Max then some (.localNode s)
  else some (.ipn ⟨a, n⟩ s)

def specificityScore (p : IpnPatternItem) : Option Nat :=
  if !p.allocatorId.isExact && p.nodeNumber != .wildcard then none
  else if !p.nodeNumber.isExact && p.serviceNumber != .wildcard then none
  else
    let exact := p.allocatorId.isExact && p.nodeNumber.isExact && p.serviceNumber.isExact
    some ((if exact then 256 else 0) +
      (p.allocatorId.literalBits + p.nodeNumber.literalBits + p.serviceNumber.literalBits))

end IpnPatternItem

/-! ## The `dtn` scheme -/

inductive DtnPatternItem where
  | none
  | any
  | exact (nodeName serviceName : Bytes)
  | glob (pattern : Bytes)
deriving DecidableEq, Ord, Repr

def isCharStart (b : UInt8) : Bool := b &&& 0xC0 != 0x80

namespace DtnPatternItem

def doGlob [Globs] (nodeName demux pattern : Bytes) : Bool :=
  Globs.matchesWith pattern (nodeName ++ 0x2F :: demux)

def «matches» [Globs] (p : DtnPatternItem) (eid : Eid) : Bool :=
  match p, eid with
  | .none, eid => eid.isNull
  | .any, .dtn _ _ => true
  | .any, .unknown scheme _ => scheme == 1
  | .exact n d, .dtn nodeName serviceName => n == nodeName && d == serviceName
  | .glob pattern, .dtn nodeName serviceName => doGlob nodeName serviceName pattern
  | _, _ => false

def isSubset [Globs] : DtnPatternItem → DtnPatternItem → Bool
  | .none, .none => true
  | .none, .any => false
  | _, .any => true
  | .any, .glob pattern => pattern == [0x2A, 0x2A]
  | .exact n d, .exact n' d' => n == n' && d == d'
  | .exact n d, .glob pattern => doGlob n d pattern
  | .glob _, .glob _ => true
  | _, _ => false

def tryToEid : DtnPatternItem → Option Eid
  | .none => some .null
  | .exact nodeName serviceName => some (.dtn nodeName serviceName)
  | _ => Option.none

def specificityScore : DtnPatternItem → Option Nat
  | .none => some 256
  | .any => some 0
  | .exact nodeName serviceName =>
    some ((256 + nodeName.length % 2 ^ 32 + serviceName.length % 2 ^ 32) % 2 ^ 32)
  | .glob s =>
    let authority := s.takeWhile (· != 0x2F)
    if 1 < authority.countP (· == 0x2A) then Option.none
    else if authority.contains 0x2A && !(authority.takeWhile (· != 0x2E)).contains 0x2A then
      Option.none
    else
      some (s.countP (fun b => isCharStart b &&
        b != 0x2A && b != 0x3F && b != 0x5B && b != 0x5D) % 2 ^ 32)

end DtnPatternItem

/-! ## Patterns -/

inductive EidPatternItem where
  | anyNumericScheme (scheme : Nat)
  | anyTextScheme (scheme : Bytes)
  | ipn (item : IpnPatternItem)
  | dtn (item : DtnPatternItem)
deriving DecidableEq, Ord, Repr

def Eid.numericScheme : Eid → Option Nat
  | .null => none
  | .localNode _ | .legacyIpn _ _ | .ipn _ _ => some 2
  | .dtn _ _ => some 1
  | .unknown scheme _ => some scheme

/-- `"dtn"` -/
def dtnScheme : Bytes := [0x64, 0x74, 0x6E]

/-- `"ipn"` -/
def ipnScheme : Bytes := [0x69, 0x70, 0x6E]

def numericSchemeOfText (scheme : Bytes) : Option Nat :=
  if scheme = dtnScheme then some 1 else if scheme = ipnScheme then some 2 else none

namespace EidPatternItem

variable [Globs]

def «matches» (p : EidPatternItem) (eid : Eid) : Bool :=
  match p with
  | .ipn i => i.matches eid
  | .dtn i => i.matches eid
  | .anyNumericScheme n => eid.numericScheme == some n
  | .anyTextScheme s =>
    match numericSchemeOfText s with
    | some n => eid.numericScheme == some n
    | none => false

def isSubset : EidPatternItem → EidPatternItem → Bool
  | .anyNumericScheme l, .anyNumericScheme r => l == r
  | .anyNumericScheme n, .anyTextScheme s | .anyTextScheme s, .anyNumericScheme n =>
    (n == 1 && s == dtnScheme) || (n == 2 && s == ipnScheme)
  | .anyTextScheme l, .anyTextScheme r => l == r
  | .ipn _, .anyNumericScheme n => n == 2
  | .ipn _, .anyTextScheme s => s == ipnScheme
  | .ipn l, .ipn r => l.isSubset r
  | .ipn l, .dtn r => l.tryToEid == some .null && r.tryToEid == some .null
  | .dtn _, .anyNumericScheme n => n == 1
  | .dtn _, .anyTextScheme s => s == dtnScheme
  | .dtn l, .ipn r => l.tryToEid == some .null && r.tryToEid == some .null
  | .dtn l, .dtn r => l.isSubset r
  | _, _ => false

omit [Globs] in
def expandLocalNode (p : EidPatternItem) (nodeId : IpnNodeId) : Option EidPatternItem :=
  match p with
  | .ipn i => (i.expandLocalNode nodeId).map .ipn
  | _ => none

omit [Globs] in
def specificityScore : EidPatternItem → Option Nat
  | .ipn i => i.specificityScore
  | .dtn i => i.specificityScore
  | .anyNumericScheme _ | .anyTextScheme _ => some 0

end EidPatternItem

inductive EidPattern where
  | any
  | set (items : List EidPatternItem)
deriving DecidableEq, Repr

namespace EidPattern

variable [Globs]

def «matches» (p : EidPattern) (eid : Eid) : Bool :=
  match p with
  | .any => true
  | .set items => items.any (·.matches eid)

def intoAtoms : EidPattern → List EidPattern
  | .set (a :: b :: items) => (a :: b :: items).map fun i => .set [i]
  | p => [p]

def leastScore : List (Option Nat) → Option Nat
  | [] => none
  | [s] => s
  | s :: l => match s, leastScore l with
    | some a, some b => some (min a b)
    | _, _ => none

def specificityScore : EidPattern → Option Nat
  | .any => some 0
  | .set items => leastScore (items.map EidPatternItem.specificityScore)

def cmp (p q : EidPattern) : Ordering :=
  (compare (q.specificityScore.getD 0) (p.specificityScore.getD 0)).then <|
    match p, q with
    | .any, .any => .eq
    | .any, .set _ => .lt
    | .set _, .any => .gt
    | .set a, .set b => compare a b

instance : Ord EidPattern := ⟨cmp⟩

def isSubset (p q : EidPattern) : Bool :=
  match p, q with
  | _, .any => true
  | .any, _ => false
  | .set l, .set r => l.all fun i => r.any fun j => i.isSubset j

def expandLocalNode (p : EidPattern) (nodeId : IpnNodeId) : Option EidPattern :=
  match p with
  | .any => none
  | .set items =>
    if items.any fun i => (i.expandLocalNode nodeId).isSome then
      some (.set (items.map fun i => (i.expandLocalNode nodeId).getD i))
    else none

/-- `From<IpnNodeId>` -/
def ofIpnNodeId (node : IpnNodeId) : EidPattern :=
  .set [.ipn (.new node.allocatorId node.nodeNumber none)]

def ofEid : Eid → EidPattern
  | .null => .set [.ipn (.new 0 0 (some 0)), .dtn .none]
  | .localNode s => .set [.ipn (.new 0 Eid.u32Max (some s))]
  | .legacyIpn fqnn s | .ipn fqnn s =>
    .set [.ipn (.new fqnn.allocatorId fqnn.nodeNumber (some s))]
  | .dtn nodeName serviceName => .set [.dtn (.exact nodeName serviceName)]
  | .unknown scheme _ => .set [.anyNumericScheme scheme]

end EidPattern

end Hardy
