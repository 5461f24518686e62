import Rudurru.Proto

/-!
# Rudurru.Storage.Bounds

Key ranges (`src/storage/mod.rs`): how a `(key, range_end)` pair is read, and which keys of
an ordered map it selects.

Keys are ordered lexicographically by byte, which is `compare` on `List UInt8` and the order
of `Vec<u8>` in the source's `BTreeMap`.
-/

namespace Rudurru

open Std (ExtTreeMap)

/-- `a < b` on byte strings. -/
def bytesLt (a b : Bytes) : Bool := compare a b == .lt

/-- `a <= b` on byte strings. -/
def bytesLe (a b : Bytes) : Bool := compare a b != .gt

/-- `RangeBound`. -/
inductive RangeBound
  | all
  | point (key : Bytes)
  | fromKey (key : Bytes)
  | prefixOf (key : Bytes)
  | range (start stop : Bytes)
  deriving DecidableEq, Repr

/-- `resolve_range`. Its third test (`key` empty and `range_end` a single zero byte) repeats
the second and is never reached. -/
def resolveRange (key rangeEnd : Bytes) : RangeBound :=
  if rangeEnd = [] then .point key
  else if rangeEnd = [0] then
    if key = [] then .all else .fromKey key
  -- `range_end` is `key` with its last byte incremented
  else if rangeEnd.length = key.length ∧ rangeEnd.dropLast = key.dropLast
      ∧ rangeEnd.getLast? = key.getLast?.map (· + 1) ∧ key.getLast? ≠ some 0xff then
    .prefixOf key
  -- `range_end` is `key` followed by a zero byte
  else if rangeEnd = key ++ [0] then .prefixOf key
  else .range key rangeEnd

/-- `matches_range`. -/
def matchesRange (bound : RangeBound) (key : Bytes) : Bool :=
  match bound with
  | .all => true
  | .point k => key = k
  | .fromKey k => bytesLe k key
  | .prefixOf p => p.isPrefixOf key
  | .range start stop => bytesLe start key && bytesLt key stop

/-- `btree_bounds`. -/
def btreeBounds : RangeBound → Option Bytes × Option Bytes
  | .all => (none, none)
  | .point k => (some k, some (k ++ [0]))
  | .fromKey k => (some k, none)
  | .prefixOf p => (some p, none)
  | .range start stop => (some start, some stop)

/-- `BTreeMap::range` over `start..end`, `start..`, `..end` or everything: the entries in key
order. The two-sided form panics on an inverted interval. -/
def btreeRange {β : Type} (m : ExtTreeMap Bytes β) :
    Option Bytes → Option Bytes → Except Failure (List (Bytes × β))
  | some start, some stop =>
      if bytesLt stop start then
        .error (.panic "range start is greater than range end in BTreeMap")
      else .ok (m.toList.filter fun e => bytesLe start e.1 && bytesLt e.1 stop)
  | some start, none => .ok (m.toList.filter fun e => bytesLe start e.1)
  | none, some stop => .ok (m.toList.filter fun e => bytesLt e.1 stop)
  | none, none => .ok m.toList

/-- The walk shared by the range readers: the map's iterator over the bounds, cut at the first
key that leaves a prefix bound. -/
def walkRange {β : Type} (m : ExtTreeMap Bytes β) (bound : RangeBound) :
    Option Bytes × Option Bytes → Except Failure (List (Bytes × β))
  | (start, stop) => do
      let entries ← btreeRange m start stop
      match bound with
      | .prefixOf p => return entries.takeWhile fun e => p.isPrefixOf e.1
      | _ => return entries

end Rudurru
