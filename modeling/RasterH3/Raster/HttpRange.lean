import RasterH3.Lib.Text
import Mathlib.Data.List.Basic
import Mathlib.Tactic

/-!
# Remote bytes, read by range

A source knows the size of an object and fetches ranges of it. The built-in transport is a
client of a server that may answer anything: each answer is checked against the range that
was asked for. Between the source and its transport stands a cache, of the whole object if a
server sent it at once, else of aligned blocks.

A server is a function from the number of the attempt to its answer. A read of the source is
given the answers of its transport, and is `none` where the code panics.

Every error has its text, since callers pass it on. Retries are a loop over attempts with
the answers of the server numbered; waiting between them has no counterpart. Reads come one
after the other here.
-/

namespace RasterH3.Raster

def defaultBlockSize : Nat := 131072

inductive RemoteError where
  | ignoredRange (start stop status : Nat)
  | noContentRange
  | rangeMismatch (start stop : Nat)
  | bodyLength (start stop actual : Nat)
  | outsideFile (start stop : Nat) (total : Option Nat)
  | notFound (url : String)
  | httpStatus (url : String) (status : Nat) (text : String)
  | network (url : String)
  | readFailed (url : String)
  | contentLength (actual expected : Nat)
  | unexpectedStatus (status : Nat) (url : String)
  | cachedShort (held requested offset : Nat)
  | exactOffset (offset size : Nat)
  | exactBeyond (len offset size : Nat)
  | exactShort (len offset actual : Nat)
  deriving DecidableEq, Repr

def RemoteError.message : RemoteError → String
  | ignoredRange start stop status =>
      s!"Remote server ignored byte range {start}-{stop} (HTTP {status})"
  | noContentRange => "Remote range response lacks a valid Content-Range header"
  | rangeMismatch start stop =>
      s!"Remote range response does not match requested bytes {start}-{stop}"
  | bodyLength start stop actual =>
      s!"Remote range response for bytes {start}-{stop} has {actual} bytes, expected " ++
        s!"{stop - start + 1}"
  | outsideFile start stop total =>
      s!"Requested remote byte range {start}-{stop} lies outside file" ++
        match total with
        | some total => s!" of {total} bytes"
        | none => ""
  | notFound url => s!"Remote raster not found (HTTP 404): {url}"
  | httpStatus url status text => "HTTP request failed for '" ++ url ++ s!"': HTTP {status} - {text}"
  | network url => "Network transport error connecting to '" ++ url ++ "'"
  | readFailed url => "Failed reading response from '" ++ url ++ "'"
  | contentLength actual expected =>
      s!"Remote response has {actual} bytes but Content-Length says {expected}"
  | unexpectedStatus status url => s!"Unexpected HTTP status {status} from '" ++ url ++ "'"
  | cachedShort held requested offset =>
      s!"Cached remote file holds {held} of {requested} requested bytes at offset {offset}"
  | exactOffset offset size =>
      s!"read_exact_range: offset {offset} extends beyond file of {size} bytes"
  | exactBeyond len offset size =>
      s!"read_exact_range: requested {len} bytes at offset {offset} extends beyond file of " ++
        s!"{size} bytes"
  | exactShort len offset actual =>
      s!"read_exact_range: expected {len} bytes at offset {offset}, got {actual}"

/-! ## Headers -/

/-- `str::parse::<u64>`: digits after an optional plus sign. -/
def parseU64 (s : List Char) : Option Nat :=
  let digits := match s with
    | '+' :: rest => rest
    | s => s
  if digits ≠ [] ∧ digits.all Char.isDigit then
    let n := digits.foldl (fun n c => 10 * n + (c.toNat - '0'.toNat)) 0
    if n < 2 ^ 64 then some n else none
  else none

def splitOnce (c : Char) (s : List Char) : Option (List Char × List Char) :=
  if c ∈ s then some (s.takeWhile (· ≠ c), (s.dropWhile (· ≠ c)).tail) else none

/-- `bytes start-end/total` -/
def parseContentRange (value : String) : Option (Nat × Nat × Nat) := do
  let value := Text.trim value.toList
  let unit := "bytes ".toList
  if unit.isPrefixOf value then
    let (range, total) ← splitOnce '/' (value.drop unit.length)
    let (start, stop) ← splitOnce '-' range
    let start ← parseU64 start
    let stop ← parseU64 stop
    let total ← parseU64 total
    if start ≤ stop ∧ stop < total then some (start, stop, total) else none
  else none

def validateRangeResponseHeaders (status : Nat) (contentRange : Option String)
    (start stop : Nat) (expectedTotal : Option Nat) : Except RemoteError Nat :=
  if status ≠ 206 then .error (.ignoredRange start stop status)
  else
    match contentRange.bind parseContentRange with
    | none => .error .noContentRange
    | some (actualStart, actualStop, total) =>
        if actualStart ≠ start ∨ actualStop ≠ stop ∨ expectedTotal.any (· ≠ total) then
          .error (.rangeMismatch start stop)
        else .ok total

def validateRangeResponse (status : Nat) (contentRange : Option String) (start stop : Nat)
    (expectedTotal : Option Nat) (bodyLen : Nat) : Except RemoteError Nat := do
  let total ← validateRangeResponseHeaders status contentRange start stop expectedTotal
  if bodyLen ≠ stop - start + 1 then .error (.bodyLength start stop bodyLen) else return total

/-! ## The HTTP transport -/

structure Response where
  status : Nat
  contentRange : Option String
  contentLength : Option String
  /-- `none` if the connection breaks before the body ends. -/
  body : Option (List UInt8)

/-- What one attempt comes to. A status of 400 or more is an error of the client. -/
inductive Attempt where
  | response (r : Response)
  | status (status : Nat) (text : String)
  | network

def isTransientError : Attempt → Bool
  | .status status _ => status ∈ [429, 500, 502, 503, 504]
  | .network => true
  | .response _ => false

/-- The answers of a server to one request, attempt by attempt. -/
abbrev Server := Nat → Attempt

def maxRetries : Nat := 4

/-- The error of the last attempt. -/
def failure (url : String) : Attempt → RemoteError
  | .status status text => if status = 404 then .notFound url else .httpStatus url status text
  | _ => .network url

/-- The loop of `execute_request`, with `left` retries left. -/
def attemptFrom (url : String) (server : Server) : Nat → Except RemoteError Response
  | 0 =>
      match server maxRetries with
      | .response r => .ok r
      | failed => .error (failure url failed)
  | left + 1 =>
      match server (maxRetries - (left + 1)) with
      | .response r => .ok r
      | failed =>
          if isTransientError failed then attemptFrom url server left
          else .error (failure url failed)

def executeRequest (url : String) (server : Server) : Except RemoteError Response :=
  attemptFrom url server maxRetries

inductive ProbeResult where
  | complete (data : List UInt8) (totalSize : Nat)
  | partialBlock (data : List UInt8) (totalSize : Nat)

/-- The body, read no further than one byte beyond what is expected. -/
def readBody (url : String) (r : Response) (expected : Nat) : Except RemoteError (List UInt8) :=
  match r.body with
  | none => .error (.readFailed url)
  | some body => .ok (body.take (expected + 1))

namespace HttpTransport

def probe (url : String) (server : Server) (initialFetchLen : Nat) :
    Except RemoteError ProbeResult := do
  let resp ← executeRequest url server
  if resp.status = 206 then
    match resp.contentRange.bind parseContentRange with
    | none => .error .noContentRange
    | some (_, _, parsedTotal) => do
        let expectedEnd := min (initialFetchLen - 1) (parsedTotal - 1)
        let _ ← validateRangeResponseHeaders resp.status resp.contentRange 0 expectedEnd none
        let data ← readBody url resp initialFetchLen
        let total ← validateRangeResponse resp.status resp.contentRange 0 expectedEnd none
          data.length
        return .partialBlock data total
  else if resp.status = 200 then
    match resp.body with
    | none => .error (.readFailed url)
    | some data =>
        let cl := ((resp.contentLength.map String.toList).bind parseU64).getD 0
        if 0 < cl ∧ cl ≠ data.length then .error (.contentLength data.length cl)
        else return .complete data data.length
  else .error (.unexpectedStatus resp.status url)

def fetchRange (url : String) (server : Server) (start stop : Nat) (expectedTotal : Option Nat) :
    Except RemoteError (List UInt8) :=
  if stop < start ∨ expectedTotal.any (· ≤ stop) then
    .error (.outsideFile start stop expectedTotal)
  else do
    let resp ← executeRequest url server
    let _ ← validateRangeResponseHeaders resp.status resp.contentRange start stop expectedTotal
    let data ← readBody url resp (stop - start + 1)
    let _ ← validateRangeResponse resp.status resp.contentRange start stop expectedTotal data.length
    return data

end HttpTransport

/-! ## The cache -/

structure ByteCache where
  blockSize : Nat
  completeFile : Option (List UInt8)
  blocks : List (Nat × List UInt8)

namespace ByteCache

def newWithComplete (data : List UInt8) (blockSize : Nat) : ByteCache := ⟨blockSize, some data, []⟩

def newWithInitialBlock (data : List UInt8) (blockSize : Nat) : ByteCache :=
  ⟨blockSize, none, [(0, data)]⟩

/-- The bytes copied, if the complete file is present. -/
def copyFromComplete (c : ByteCache) (offset len : Nat) : Option (List UInt8) :=
  c.completeFile.map fun full =>
    if full.length ≤ offset ∨ len = 0 then []
    else (full.drop offset).take (min len (full.length - offset))

def getBlock (c : ByteCache) (blockIdx : Nat) : Option (List UInt8) := c.blocks.lookup blockIdx

/-- The block retained, an existing one if there is one. -/
def insertBlock (c : ByteCache) (blockIdx : Nat) (data : List UInt8) : List UInt8 × ByteCache :=
  match c.getBlock blockIdx with
  | some block => (block, c)
  | none => (data, { c with blocks := (blockIdx, data) :: c.blocks })

end ByteCache

/-! ## The source -/

structure RemoteHttpSource where
  totalSize : Nat
  cache : ByteCache

/-- What a transport answers: the bytes from `start` to `stop`, both included, of an object
whose size is given. -/
abbrev Fetch := Nat → Nat → Option Nat → Except RemoteError (List UInt8)

namespace RemoteHttpSource

def fromProbe : ProbeResult → RemoteHttpSource
  | .complete data totalSize => ⟨totalSize, .newWithComplete data defaultBlockSize⟩
  | .partialBlock data totalSize => ⟨totalSize, .newWithInitialBlock data defaultBlockSize⟩

def fetchRange (src : RemoteHttpSource) (fetch : Fetch) (start stop : Nat) :
    Except RemoteError (List UInt8) :=
  match src.cache.copyFromComplete start (stop - start + 1) with
  | some bytes =>
      if start ≤ stop ∧ stop < src.totalSize then
        if bytes.length ≠ stop - start + 1 then
          .error (.cachedShort bytes.length (stop - start + 1) start)
        else .ok bytes
      else fetch start stop (some src.totalSize)
  | none => fetch start stop (some src.totalSize)

/-- The bytes copied to the buffer, and the source after the read. -/
abbrev ReadResult := Except RemoteError (List UInt8) × RemoteHttpSource

/-- A read over more than one block: one exact fetch, copied as a whole. -/
def readAcross (src : RemoteHttpSource) (fetch : Fetch) (offset actualLen : Nat) :
    Option ReadResult :=
  match fetch offset (offset + actualLen - 1) (some src.totalSize) with
  | .error e => some (.error e, src)
  | .ok fetched => if fetched.length ≠ actualLen then none else some (.ok fetched, src)

/-- A read in one block that is not cached. -/
def readThrough (src : RemoteHttpSource) (fetch : Fetch) (blockIdx offsetInBlock actualLen : Nat) :
    Option ReadResult :=
  let blockStart := blockIdx * src.cache.blockSize
  let blockEnd := min (blockStart + src.cache.blockSize) src.totalSize
  match fetch blockStart (blockEnd - 1) (some src.totalSize) with
  | .error e => some (.error e, src)
  | .ok fetched =>
      let (finalBlock, cache) := src.cache.insertBlock blockIdx fetched
      -- the slice starts beyond the end
      if finalBlock.length < offsetInBlock then none
      else
        let available := min (finalBlock.length - offsetInBlock) actualLen
        some (.ok ((finalBlock.drop offsetInBlock).take available), { src with cache })

def readRangeInto (src : RemoteHttpSource) (fetch : Fetch) (offset len : Nat) :
    Option ReadResult :=
  if src.totalSize ≤ offset ∨ len = 0 then some (.ok [], src)
  else
    let actualLen := min len (src.totalSize - offset)
    match src.cache.copyFromComplete offset actualLen with
    | some bytes => some (.ok bytes, src)
    | none =>
        let blockIdx := offset / src.cache.blockSize
        let offsetInBlock := offset - blockIdx * src.cache.blockSize
        if actualLen ≤ src.cache.blockSize - offsetInBlock then
          match src.cache.getBlock blockIdx with
          | some block =>
              if offsetInBlock < block.length then
                let available := min (block.length - offsetInBlock) actualLen
                some (.ok ((block.drop offsetInBlock).take available), src)
              else src.readThrough fetch blockIdx offsetInBlock actualLen
          | none => src.readThrough fetch blockIdx offsetInBlock actualLen
        else src.readAcross fetch offset actualLen

def readExactRange (src : RemoteHttpSource) (fetch : Fetch) (offset len : Nat) :
    Option ReadResult :=
  if src.totalSize < offset then some (.error (.exactOffset offset src.totalSize), src)
  else if len = 0 then some (.ok [], src)
  else if src.totalSize - offset < len then
    some (.error (.exactBeyond len offset src.totalSize), src)
  else
    (src.readRangeInto fetch offset len).map fun out =>
      match out.1 with
      | .error e => (.error e, out.2)
      | .ok buf =>
          if buf.length ≠ len then (.error (.exactShort len offset buf.length), out.2)
          else (.ok buf, out.2)

end RemoteHttpSource

/-- A read of a source, with what its transport answers meanwhile. -/
structure ReadCall where
  offset : Nat
  len : Nat
  fetch : Fetch

/-- Reads one after the other, and their results. -/
def runReads : RemoteHttpSource → List ReadCall →
    Option (List (Except RemoteError (List UInt8)) × RemoteHttpSource)
  | src, [] => some ([], src)
  | src, call :: calls => do
      let (result, src) ← src.readRangeInto call.fetch call.offset call.len
      let (results, src) ← runReads src calls
      return (result :: results, src)

end RasterH3.Raster
