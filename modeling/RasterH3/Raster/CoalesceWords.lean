import RasterH3.Lib.Checked
import RasterH3.Raster.RemotePrefetch

/-!
# Coalescing ranges in machine words

`coalesce_chunk_ranges` with every sum and difference it takes of `u64` values. A sum of 2^64
or more, or a negative difference, fails.
-/

namespace RasterH3.Raster.RemotePrefetch

open Checked

/-- The range that a chunk begins. -/
def CoalescedRange.begin (chunk : ChunkLocation) (chunkEnd : Nat) : CoalescedRange :=
  { tileIdx := chunk.tileIdx
    startOffset := chunk.offset
    endOffset := chunkEnd
    chunkSlices := [(chunk.chunkIdx, 0, chunk.length)] }

/-- The current range with a chunk added, if it may be added. -/
def CoalescedRange.extendWord (curr : CoalescedRange) (chunk : ChunkLocation) (chunkEnd : Nat)
    (maxGapBytes maxRangeBytes : Nat) : Option (Option CoalescedRange) :=
  if curr.tileIdx = chunk.tileIdx ∧ curr.endOffset < chunk.offset then do
    let next ← add 64 curr.endOffset 1
    let gap ← sub chunk.offset next
    let past ← add 64 chunkEnd 1
    let newTotalLen ← sub past curr.startOffset
    if gap ≤ maxGapBytes ∧ newTotalLen ≤ maxRangeBytes then do
      let sliceStart ← sub chunk.offset curr.startOffset
      return some
        { curr with
          endOffset := chunkEnd
          chunkSlices := curr.chunkSlices ++ [(chunk.chunkIdx, sliceStart, chunk.length)] }
    else some none
  else some none

def coalesceLoopWord (maxGapBytes maxRangeBytes : Nat) :
    Option CoalescedRange → List ChunkLocation → Option (List CoalescedRange)
  | current, [] => some current.toList
  | current, chunk :: chunks =>
      if chunk.length = 0 then coalesceLoopWord maxGapBytes maxRangeBytes current chunks
      else do
        let stop ← add 64 chunk.offset chunk.length
        let chunkEnd ← sub stop 1
        match current with
        | none =>
            coalesceLoopWord maxGapBytes maxRangeBytes (some (.begin chunk chunkEnd)) chunks
        | some curr =>
            match ← curr.extendWord chunk chunkEnd maxGapBytes maxRangeBytes with
            | some longer => coalesceLoopWord maxGapBytes maxRangeBytes (some longer) chunks
            | none => do
                let ranges ←
                  coalesceLoopWord maxGapBytes maxRangeBytes (some (.begin chunk chunkEnd)) chunks
                return curr :: ranges

def coalesceChunkRangesWord (chunks : List ChunkLocation) (maxGapBytes maxRangeBytes : Nat) :
    Option (List CoalescedRange) :=
  coalesceLoopWord maxGapBytes maxRangeBytes none chunks

end RasterH3.Raster.RemotePrefetch
