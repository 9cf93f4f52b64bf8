import Mathlib.Data.List.Sort
import Hardy.Build.Builder

/-!
# Rebuild plans

Model of `Chunk` in `bpv7/src/editor.rs`.  A rebuilt bundle is a list of
chunks, each of them a range of the bytes that were edited or bytes of its
own.  `flatten` writes the chunks into a new buffer; `flattenInplace` moves
them about in the old one.
-/

namespace Hardy

open Cbor

/-- `editor::Error`, and `panicked` for an `expect` that failed. -/
inductive EditorError where
  | illegalDuplicate (blockType : BlockType)
  | outOfBlockNumbers
  | primaryBlock
  | payloadBlock
  | noSuchBlock (number : Nat)
  | bibIsEncrypted (number : Nat)
  | primaryBlockHasBib
  | cannotDecryptRelatedBib (number : Nat)
  | securityBlock
  | builder (source : BuilderError)
  | panicked (message : String)

def EditorError.ofError (x : Error) : EditorError := .builder (.internalError x)

def EditorError.ofBpsec (x : Bpsec.Error) : EditorError := .ofError (.invalidBPSec x)

inductive Chunk where
  | unchanged (range : Range)
  | new (data : Bytes)
deriving DecidableEq, Repr

/-- The most bytes that a vector holds. -/
def isizeMax : Nat := 2 ^ 63 - 1

namespace Chunk

def len : Chunk → Nat
  | unchanged range => range.stop - range.start
  | new data => data.length

/-! ## Writing a plan out -/

def bytes (source : Bytes) : Chunk → Except EditorError Bytes
  | unchanged range =>
    if range.start ≤ range.stop ∧ range.stop ≤ source.length then .ok (range.slice source)
    else .error (.panicked "Chunk::Unchanged extent out of bounds of the source buffer")
  | new data => .ok data

def allocate (len : Nat) : Except EditorError Unit :=
  if len ≤ isizeMax then .ok () else .error (.panicked "capacity overflow")

def totalLen (chunks : List Chunk) : Nat := (chunks.map len).sum

def flatten (chunks : List Chunk) (source : Bytes) : Except EditorError Bytes := do
  allocate (2 + totalLen chunks)
  let parts ← chunks.mapM (bytes source)
  pure (0x9F :: (parts.flatten ++ [0xFF]))

/-- `buffer[start..].copy_from_slice(data)` -/
def overwrite (buffer : Bytes) (start : Nat) (data : Bytes) : Bytes :=
  buffer.take start ++ data ++ buffer.drop (start + data.length)

theorem length_overwrite {buffer data : Bytes} {start : Nat}
    (h : start + data.length ≤ buffer.length) :
    (overwrite buffer start data).length = buffer.length := by
  simp only [overwrite, List.length_append, List.length_take, List.length_drop]
  omega

theorem getElem?_overwrite {buffer data : Bytes} {start : Nat}
    (h : start + data.length ≤ buffer.length) (i : Nat) :
    (overwrite buffer start data)[i]? =
      if start ≤ i ∧ i < start + data.length then data[i - start]? else buffer[i]? := by
  have htake : (buffer.take start).length = start := by
    rw [List.length_take]
    omega
  rw [overwrite, List.append_assoc]
  by_cases hi : i < start
  · rw [List.getElem?_append_left (by omega), List.getElem?_take_of_lt hi, if_neg (by omega)]
  · rw [List.getElem?_append_right (by omega), htake]
    by_cases hd : i < start + data.length
    · rw [List.getElem?_append_left (by omega), if_pos (by omega)]
    · rw [List.getElem?_append_right (by omega), List.getElem?_drop, if_neg (by omega)]
      congr 1
      omega

theorem overwrite_comm {buffer a b : Bytes} {i j : Nat} (ha : i + a.length ≤ buffer.length)
    (hb : j + b.length ≤ buffer.length) (h : i + a.length ≤ j ∨ j + b.length ≤ i) :
    overwrite (overwrite buffer i a) j b = overwrite (overwrite buffer j b) i a := by
  refine List.ext_getElem? fun k => ?_
  rw [getElem?_overwrite (by rw [length_overwrite ha]; exact hb), getElem?_overwrite ha,
    getElem?_overwrite (by rw [length_overwrite hb]; exact ha), getElem?_overwrite hb]
  split
  · next hk => rw [if_neg (by omega)]
  · rfl

/-- `buffer[start..start + data.len()].copy_from_slice(data)`; a single byte is assigned under
the same bound. -/
def copyFromSlice (buffer : Bytes) (start : Nat) (data : Bytes) : Except EditorError Bytes :=
  if start + data.length ≤ buffer.length then .ok (overwrite buffer start data)
  else .error (.panicked "range end index out of range for slice")

/-- `slice::copy_within`, which moves the bytes as they are before the call. -/
def copyWithin (buffer : Bytes) (range : Range) (dest : Nat) : Except EditorError Bytes :=
  if range.start ≤ range.stop ∧ range.stop ≤ buffer.length then
    if dest + (range.stop - range.start) ≤ buffer.length then
      .ok (overwrite buffer dest (range.slice buffer))
    else .error (.panicked "dest is out of bounds")
  else .error (.panicked "range end index out of range for slice")

def resize (buffer : Bytes) (len : Nat) : Except EditorError Bytes := do
  if buffer.length < len then
    allocate len
    pure (buffer ++ List.replicate (len - buffer.length) 0)
  else pure buffer

/-- `pos -= len` -/
def stepBack (pos len : Nat) : Except EditorError Nat :=
  if len ≤ pos then .ok (pos - len) else .error (.panicked "attempt to subtract with overflow")

def putAt (buffer : Bytes) (pos : Nat) : Chunk → Except EditorError Bytes
  | unchanged range => if range.start ≠ pos then copyWithin buffer range pos else pure buffer
  | new data => copyFromSlice buffer pos data

def forward (s : Bytes × Nat) (chunk : Chunk) : Except EditorError (Bytes × Nat) := do
  let buffer ← putAt s.1 s.2 chunk
  pure (buffer, s.2 + chunk.len)

def backward (s : Bytes × Nat) (chunk : Chunk) : Except EditorError (Bytes × Nat) := do
  let pos ← stepBack s.2 chunk.len
  let buffer ← putAt s.1 pos chunk
  pure (buffer, pos)

def moves : Nat → List Chunk → List (Nat × Range)
  | _, [] => []
  | pos, chunk :: l =>
    match chunk with
    | unchanged range => (pos, range) :: moves (pos + chunk.len) l
    | new _ => moves (pos + chunk.len) l

def shiftsRight (chunks : List Chunk) : Bool := (moves 1 chunks).any fun m => m.2.start < m.1

def shiftsLeft (chunks : List Chunk) : Bool := (moves 1 chunks).any fun m => m.1 < m.2.start

def pass (chunks : List Chunk) (buffer : Bytes) : Except EditorError (Bytes × Nat) :=
  if shiftsRight chunks then chunks.reverse.foldlM backward (buffer, 1 + totalLen chunks)
  else chunks.foldlM forward (buffer, 1)

def flattenInplace (chunks : List Chunk) (source : Bytes) : Except EditorError Bytes := do
  if shiftsRight chunks && shiftsLeft chunks then flatten chunks source
  else
    let total := 1 + totalLen chunks + 1
    let buffer ← resize source total
    let buffer ← copyFromSlice buffer 0 [0x9F]
    let (buffer, _) ← pass chunks buffer
    let buffer ← copyFromSlice buffer (total - 1) [0xFF]
    pure (buffer.take total)

/-- `Chunk::flatten_bytes`, for a buffer that nobody else holds (`unique`) or
one that is shared. -/
def flattenBytes (unique : Bool) (chunks : List Chunk) (source : Bytes) :
    Except EditorError Bytes :=
  if unique then flattenInplace chunks source else flatten chunks source

/-! ## Assembling a plan -/

def swapRemove {α : Type} (l : List α) (i : Nat) : List α :=
  match l.getLast? with
  | some last => (l.set i last).dropLast
  | none => l

def fillGap (gap : Nat) (fresh : List (Nat × Bytes)) : List (Nat × Chunk) × List (Nat × Bytes) :=
  match fresh.findIdx? fun e => e.2.length == gap with
  | some i => ((fresh[i]?.map fun e => (e.1, new e.2)).toList, swapRemove fresh i)
  | none => ([], fresh)

def interleave : Option Nat → List (Nat × Range) → List (Nat × Bytes) → List (Nat × Chunk)
  | _, [], fresh => fresh.map fun e => (e.1, new e.2)
  | prevEnd, (number, range) :: l, fresh =>
    let (filled, fresh) :=
      match prevEnd with
      | some stop => if 0 < range.start - stop then fillGap (range.start - stop) fresh
          else ([], fresh)
      | none => ([], fresh)
    filled ++ (number, unchanged range) :: interleave (some range.stop) l fresh

def asUnchanged : Nat × Chunk → Option (Nat × Range)
  | (number, unchanged range) => some (number, range)
  | (_, new _) => none

def asNew : Nat × Chunk → Option (Nat × Bytes)
  | (number, new data) => some (number, data)
  | (_, unchanged _) => none

/-- Longer chunks first, and the lower number among chunks of one length. -/
def before (a b : Nat × Bytes) : Prop :=
  b.2.length < a.2.length ∨ a.2.length = b.2.length ∧ a.1 ≤ b.1

instance : DecidableRel before := fun _ _ => inferInstanceAs (Decidable (_ ∨ _))

def order (extensions : List (Nat × Chunk)) : List (Nat × Chunk) :=
  interleave none ((extensions.filterMap asUnchanged).insertionSort fun a b => a.2.start ≤ b.2.start)
    ((extensions.filterMap asNew).insertionSort before)

def merge (result : List Chunk) (chunk : Chunk) : List Chunk :=
  match result.getLast?, chunk with
  | some (unchanged last), unchanged next =>
    if last.stop = next.start then result.dropLast ++ [unchanged ⟨last.start, next.stop⟩]
    else result ++ [chunk]
  | _, _ => result ++ [chunk]

def assembled (primary : Chunk) (extensions : List (Nat × Chunk)) (payload : Chunk) :
    List (Nat × Chunk) :=
  (0, primary) :: (order extensions ++ [(1, payload)])

def assemble (primary : Chunk) (extensions : List (Nat × Chunk)) (payload : Chunk) : List Chunk :=
  ((assembled primary extensions payload).map Prod.snd).foldl merge []

def place : Nat → List (Nat × Chunk) → HashMap Block → HashMap Block
  | _, [], blocks => blocks
  | offset, (number, chunk) :: l, blocks =>
    place (offset + chunk.len) l
      (blocks.modify number fun b => { b with extent := ⟨offset, offset + chunk.len⟩ })

end Chunk

end Hardy
