import OxiServe.Http.Request
import OxiServe.Lib.Chunked
import OxiServe.Lib.Stream

/-! # Request bodies of HTTP/1

The body is read into memory before the request is routed, by its length or by
its chunks. Each read of the socket yields one segment; a chunk is refused for
its size before its data is read. Sizes are `u64` values and wrap around.
-/
namespace OxiServe.Server
open Request (Req)

/-- How reading a body ends; what is left belongs to the next request. -/
inductive BodyEnd
  | done (rest : Bytes) (reads : Source)
  | refused (status : ℕ)
  | panic
deriving DecidableEq, Repr

structure BodyRead where
  body : Bytes
  ended : BodyEnd
deriving DecidableEq, Repr

/-- A request as it arrives: the buffer its head was found in, what the socket
still returns, and whether a read that fails does so for its timeout. -/
structure Incoming where
  buf : Bytes
  reads : Source
  timesOut : Bool

section Reading

def readFailure (timesOut : Bool) : ℕ := if timesOut then 408 else 400

/-- The loop of `read_exact_body`. -/
def fillBody (timesOut : Bool) (n : ℕ) (rest : Bytes) : Source → Bytes → BodyRead
  | [], body => ⟨body,if n ≤ body.length then .done rest [] else .refused 400⟩
  | .failed :: reads, body =>
    ⟨body,if n ≤ body.length then .done rest (.failed :: reads) else .refused (readFailure timesOut)⟩
  | .data b :: reads, body =>
    if n ≤ body.length then ⟨body,.done rest (.data b :: reads)⟩
    else if b = [] then ⟨body,.refused 400⟩
    else if b.length ≤ n - body.length then fillBody timesOut n rest reads (body ++ b)
    else ⟨body ++ b.take (n - body.length),.done rest (.data (b.drop (n - body.length)) :: reads)⟩

def readExactBody (timesOut : Bool) (n : ℕ) (rest : Bytes) (reads : Source) : BodyRead :=
  fillBody timesOut n (rest.drop n) reads (rest.take n)

/-- Reads on until the unread bytes are as `ready` wants them. -/
def fillUntil {α : Type} (timesOut : Bool) (ready : Bytes → Except ℕ (Option α)) :
    Source → Bytes → Except ℕ (α × Bytes × Source)
  | reads, rest =>
    match ready rest with
    | .error status => .error status
    | .ok (some a) => .ok (a,rest,reads)
    | .ok none =>
      match reads with
      | [] => .error 400
      | .failed :: _ => .error (readFailure timesOut)
      | .data b :: reads => if b = [] then .error 400 else fillUntil timesOut ready reads (rest ++ b)

def findCrlf : Bytes → Option ℕ
  | [] => none
  | c :: r => if c = 13 ∧ r.head? = some 10 then some 0 else (findCrlf r).map (· + 1)

/-- A size line does not go on for more than a kilobyte. -/
def sizeLine (rest : Bytes) : Except ℕ (Option ℕ) :=
  match findCrlf rest with
  | some i => .ok (some i)
  | none => if 1024 < rest.length then .error 400 else .ok none

def trailerLine (rest : Bytes) : Except ℕ (Option ℕ) := .ok (findCrlf rest)

def holds (n : ℕ) (rest : Bytes) : Except ℕ (Option Unit) := .ok (if n ≤ rest.length then some () else none)

def parseHexFrom : ℕ → Bytes → Option ℕ
  | n, [] => some n
  | n, c :: r =>
    match Chunked.hexDigit c with
    | some d => if n * 16 < 2 ^ 64 ∧ n * 16 + d < 2 ^ 64 then parseHexFrom (n * 16 + d) r else none
    | none => if c = 32 ∨ c = 9 then parseHexFrom n r else none

def parseHex (b : Bytes) : Option ℕ := if b = [] ∨ 16 < b.length then none else parseHexFrom 0 b

/-- The lines behind the last chunk, up to a blank one. -/
def readTrailers (timesOut : Bool) : ℕ → Bytes → Source → Except ℕ (Bytes × Source)
  | 0, _, _ => .error 400
  | fuel + 1, rest, reads =>
    match fillUntil timesOut trailerLine reads rest with
    | .error status => .error status
    | .ok (i,rest,reads) =>
      if i = 0 then .ok (rest.drop 2,reads) else readTrailers timesOut fuel (rest.drop (i + 2)) reads

/-- Every line takes at least two bytes, so a fuel above the number of bytes to
come is enough. The end of a chunk of nearly `2 ^ 64` bytes wraps to before its start. -/
def readChunks (timesOut : Bool) (max : ℕ) : ℕ → Bytes → Source → Bytes → BodyRead
  | 0, _, _, body => ⟨body,.refused 400⟩
  | fuel + 1, rest, reads, body =>
    match fillUntil timesOut sizeLine reads rest with
    | .error status => ⟨body,.refused status⟩
    | .ok (i,rest,reads) =>
      match parseHex ((rest.take i).takeWhile (· != 59)) with
      | none => ⟨body,.refused 400⟩
      | some size =>
        if size = 0 then
          match readTrailers timesOut fuel (rest.drop (i + 2)) reads with
          | .error status => ⟨body,.refused status⟩
          | .ok (rest,reads) => ⟨body,.done rest reads⟩
        else if max < (body.length + size) % 2 ^ 64 then ⟨body,.refused 413⟩
        else
          match fillUntil timesOut (holds ((size + 2) % 2 ^ 64)) reads (rest.drop (i + 2)) with
          | .error status => ⟨body,.refused status⟩
          | .ok (_,rest,reads) =>
            if 2 ^ 64 ≤ size + 2 then ⟨body,.panic⟩
            else if (rest.drop size).take 2 ≠ Chunked.crlf then ⟨body ++ rest.take size,.refused 400⟩
            else readChunks timesOut max fuel (rest.drop (size + 2)) reads (body ++ rest.take size)

def readChunkedBody (timesOut : Bool) (max : ℕ) (rest : Bytes) (reads : Source) : BodyRead :=
  readChunks timesOut max (rest.length + Source.size reads + 1) rest reads []

/-- Reads and decodes the body behind the head. -/
def readBody (req : Req) (max : ℕ) (i : Incoming) : BodyRead :=
  let rest := i.buf.drop req.headLen
  match req.body with
  | .none => ⟨[],.done rest i.reads⟩
  | .length n => if max < n then ⟨[],.refused 413⟩ else readExactBody i.timesOut n rest i.reads
  | .chunked => readChunkedBody i.timesOut max rest i.reads

example : readChunkedBody false 10 (lit "3;x\r\nabc\r\n2 \r\n") [.data (lit "de\r"),.data (lit "\n0\r\n\r\nG")] =
    ⟨lit "abcde",.done (lit "G") []⟩ := by decide +kernel

end Reading

end OxiServe.Server
