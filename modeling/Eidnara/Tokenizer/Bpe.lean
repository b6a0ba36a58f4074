import Eidnara.Lib.Vec
import Eidnara.Tokenizer.Vocab

/-!
# The merge engines

`bpe.rs`: two engines that merge the bytes of a piece by rank.  `mergeScan` rescans a list of
parts after every merge; `mergeHeap` keeps the parts in a linked list and their pairs in a
heap whose stale entries are skipped.  The binary heap is a list whose least key is popped.
A loop that runs out of fuel, an index out of bounds and a subtraction below zero are `none`.
-/

namespace Eidnara.Tokenizer

open Lib Utf8

def asU32 (n : Nat) : Nat := n % 2 ^ 32

def u32Max : Nat := 2 ^ 32 - 1

structure Scratch where
  parts : List (Nat × Nat)
  next : List Nat
  prev : List Nat
  rank : List Nat
  heap : List Nat
deriving DecidableEq

section

variable (vocab : Vocab) (text : Bytes) (start : Nat)

/-- The pair table at `piece[i]`, `piece[i + 1]`. -/
def pairAt (piece : Bytes) (i : Nat) : Option Nat := do
  let x ← piece[i]?
  let y ← piece[i + 1]?
  some (vocab.pair (x.toNat * 256 + y.toNat))

/-! ## Rescanning -/

/-- The first of the lowest ranks with its index; `noRank` when no rank is below it. -/
def leftmostMin (ranks : List Nat) : Nat × Nat :=
  ranks.zipIdx.foldl (fun best entry => if entry.1 < best.1 then entry else best) (noRank, 0)

def spanRank (parts : List (Nat × Nat)) (i stop : Nat) : Option Nat :=
  if stop < parts.length then do
    let a ← parts[i]?
    let b ← parts[stop]?
    vocab.rankOf text (start + a.1) (start + b.1)
  else some noRank

def setRank (parts : List (Nat × Nat)) (i rank : Nat) : Option (List (Nat × Nat)) := do
  let entry ← parts[i]?
  Vec.setAt parts i (entry.1, rank)

/-- Merges `parts[i]` with `parts[i + 1]`, the ranks of the two pairs that change first. -/
def mergeEntry (parts : List (Nat × Nat)) (i : Nat) : Option (List (Nat × Nat)) := do
  let parts ←
    if 0 < i then do
      let rank ← spanRank vocab text start parts (i - 1) (i + 2)
      setRank parts (i - 1) rank
    else some parts
  let rank ← spanRank vocab text start parts i (i + 3)
  let parts ← setRank parts i rank
  Vec.removeAt parts (i + 1)

def scanLoop : Nat → List (Nat × Nat) → Nat × Nat → Option (List (Nat × Nat))
  | 0, parts, best => if best.1 = noRank then some parts else none
  | fuel + 1, parts, best =>
    if best.1 = noRank then some parts
    else do
      let parts ← mergeEntry vocab text start parts best.2
      scanLoop fuel parts (leftmostMin (parts.dropLast.map Prod.snd))

/-- The ids of the spans between consecutive offsets. -/
def windowIds (parts : List (Nat × Nat)) : Option (List Nat) :=
  (parts.zip parts.tail).mapM fun window =>
    vocab.rankOf text (start + window.1.1) (start + window.2.1)

def mergeScan (stop : Nat) (scratch : Scratch) (out : List Nat) :
    Option (Scratch × List Nat) := do
  let piece ← checkedSlice text start stop
  let n := piece.length
  let last ← checkedSub n 1
  let ranks ← (List.range last).mapM (pairAt vocab piece)
  let parts := (ranks.zipIdx.map fun entry => (asU32 entry.2, entry.1)) ++
    [(asU32 last, noRank), (asU32 n, noRank)]
  let parts ← scanLoop vocab text start n parts (leftmostMin ranks)
  let ids ← windowIds vocab text start parts
  some ({ scratch with parts }, out ++ ids)

/-! ## The heap -/

/-- A pair's key: lowest rank first, then leftmost. -/
def packKey (rank position : Nat) : Nat := rank <<< 32 ||| position

def popMin (heap : List Nat) : Option (Nat × List Nat) :=
  heap.min?.map fun key => (key, heap.erase key)

/-- Pairs without a rank are not pushed. -/
def pushPair (heap : List Nat) (rank position : Nat) : List Nat :=
  if rank ≠ noRank then packKey rank position :: heap else heap

def refreshPair (s : Scratch) (position stop : Nat) : Option Scratch := do
  let rank ← vocab.rankOf text (start + position) (start + stop)
  let ranks ← Vec.setAt s.rank position rank
  some { s with rank := ranks, heap := pushPair s.heap rank position }

/-- The pair that starts at `i` after its merge up to `after`. -/
def refreshMerged (s : Scratch) (stop i after : Nat) : Option Scratch :=
  if after < stop then do
    let prev ← Vec.setAt s.prev after i
    let beyond ← s.next[after]?
    refreshPair vocab text start { s with prev } i beyond
  else do
    let ranks ← Vec.setAt s.rank i noRank
    some { s with rank := ranks }

/-- The pair that ends at the merged part, if there is a part before it. -/
def refreshBefore (s : Scratch) (i after : Nat) : Option Scratch := do
  let p ← s.prev[i]?
  if p ≠ u32Max then refreshPair vocab text start s p after else some s

def mergeNode (stop : Nat) (s : Scratch) (i : Nat) : Option Scratch := do
  let j ← s.next[i]?
  let after ← s.next[j]?
  let next ← Vec.setAt s.next i after
  let ranks ← Vec.setAt s.rank j dead
  let s ← refreshMerged vocab text start { s with next, rank := ranks } stop i after
  refreshBefore vocab text start s i after

def heapLoop (stop : Nat) : Nat → Scratch → Option Scratch
  | fuel, s =>
    match popMin s.heap with
    | none => some s
    | some (key, heap) =>
      match fuel with
      | 0 => none
      | fuel + 1 => do
        let rank := asU32 (key >>> 32)
        let i := asU32 key
        let current ← s.rank[i]?
        if current ≠ rank then heapLoop stop fuel { s with heap }
        else do
          let s ← mergeNode vocab text start stop { s with heap } i
          heapLoop stop fuel s

def walkIds (n : Nat) (next : List Nat) : Nat → Nat → Option (List Nat)
  | 0, i => if i < n then none else some []
  | fuel + 1, i =>
    if i < n then do
      let j ← next[i]?
      let id ← vocab.rankOf text (start + i) (start + j)
      let ids ← walkIds n next fuel j
      some (id :: ids)
    else some []

def mergeHeap (stop : Nat) (scratch : Scratch) (out : List Nat) :
    Option (Scratch × List Nat) := do
  let piece ← checkedSlice text start stop
  let n := piece.length
  let last ← checkedSub n 1
  let lastLink ← checkedSub (asU32 n) 1
  let ranks ← (List.range last).mapM (pairAt vocab piece)
  let s ← heapLoop vocab text start (asU32 n) (4 * n)
    { scratch with
      next := List.range' 1 (asU32 n)
      prev := u32Max :: List.range lastLink
      rank := ranks ++ [noRank]
      heap := ranks.zipIdx.foldl (fun heap entry => pushPair heap entry.1 entry.2) [] }
  let ids ← walkIds vocab text start n s.next n 0
  some (s, out ++ ids)

end

/-! ## One piece -/

def heapThreshold : Nat := 192

def heapThresholdNonAscii : Nat := 40

def encodePiece (vocab : Vocab) (text : Bytes) (start stop : Nat) (scratch : Scratch)
    (out : List Nat) : Option (Scratch × List Nat) := do
  let whole ← vocab.rankOf text start stop
  if whole ≠ noRank then some (scratch, out ++ [whole])
  else do
    let piece ← checkedSlice text start stop
    let first ← piece[0]?
    let lead ← if first = 0x20 then piece[1]? else some first
    let threshold := if lead < 0x80 then heapThreshold else heapThresholdNonAscii
    if piece.length ≤ threshold then mergeScan vocab text start stop scratch out
    else mergeHeap vocab text start stop scratch out

end Eidnara.Tokenizer
