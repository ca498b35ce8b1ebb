import MagiTrickle.Core.Libc
import MagiTrickle.Lib.Words

/-!
# Reading a request (`api/httpd.c`)

The request line and the headers, as `parse_headers` takes them out of the
bytes up to the blank line. Names, values and paths are C strings in buffers of
fixed size: what does not fit is cut off, and nothing is seen behind a zero byte
(`cstr`).
-/

namespace MagiTrickle.Http

abbrev nl : UInt8 := 10
abbrev cr : UInt8 := 13
abbrev space : UInt8 := 32
abbrev slash : UInt8 := 47

/-- `kv_t`. -/
structure Kv where
  name : Bytes
  value : Bytes
  deriving DecidableEq, Repr

/-- `mt_http_req`. -/
structure Req where
  method : Bytes
  path : Bytes
  query : List Kv
  params : List Kv
  headers : List Kv
  body : Bytes
  deriving DecidableEq, Repr

/-- A request after `calloc` or `memset`. -/
def Req.empty : Req := ⟨[], [], [], [], [], []⟩

def maxReqHeaders : Nat := 32
def maxQuery : Nat := 16
def maxCleanSegments : Nat := 64

def cstr (b : Bytes) : Bytes := b.takeWhile (· ≠ 0)

/-- The text before the first `c` and the text behind it, as `memchr` finds it. -/
def cut (c : UInt8) (b : Bytes) : Option (Bytes × Bytes) :=
  if c ∈ b then some (b.takeWhile (· ≠ c), (b.dropWhile (· ≠ c)).tail) else none

def chomp (line : Bytes) : Bytes := if line.getLast? = some cr then line.dropLast else line

def toLower (c : UInt8) : UInt8 := if 65 ≤ c ∧ c ≤ 90 then c + 32 else c

/-- `strcasecmp` finds no difference. -/
def sameText (a b : Bytes) : Bool := a.map toLower = b.map toLower

/-- `find_header`. -/
def findHeader (headers : List Kv) (name : Bytes) : Option Bytes :=
  (headers.find? fun h => sameText h.name name).map Kv.value

/-- The loop of `percent_decode`, with `room` bytes left. -/
def percentLoop (plusAsSpace : Bool) : Nat → Bytes → Bytes
  | 0, _ => []
  | _, [] => []
  | room + 1, c :: rest =>
    let plain := if plusAsSpace ∧ c = 43 then space else c
    match c, rest with
    | 37, a :: b :: more =>
      match Libc.hexVal a, Libc.hexVal b with
      | some x, some y => UInt8.ofNat (16 * x + y) :: percentLoop plusAsSpace room more
      | _, _ => plain :: percentLoop plusAsSpace room rest
    | _, _ => plain :: percentLoop plusAsSpace room rest

/-- `percent_decode` into a buffer of `cap` bytes. -/
def percentDecode (text : Bytes) (cap : Nat) (plusAsSpace : Bool) : Bytes :=
  percentLoop plusAsSpace (cap - 1) text

def segments (s : Bytes) : List Bytes := Lib.Words.fields (· = slash) s

/-- `split_segments`. -/
def splitSegments (s : Bytes) (max : Nat) : List Bytes := (segments s).take max

/-- One segment of the loop of `path_clean`. -/
def keepSegment (kept : List Bytes) (seg : Bytes) : List Bytes :=
  if seg = [dot] then kept
  else if seg = [dot, dot] then kept.dropLast
  else if kept.length < maxCleanSegments then kept ++ [seg]
  else kept

/-- One kept segment is written; `first` for the one without a slash before it. -/
def writeSegment (cap : Nat) (out : Bytes) (first : Bool) (seg : Bytes) : Bytes :=
  let out := if !first ∧ out.length + 1 < cap then out ++ [slash] else out
  out ++ seg.take (if cap ≤ out.length + seg.length then cap - 1 - out.length else seg.length)

/-- `path_clean`. -/
def pathClean (text : Bytes) (cap : Nat) : Bytes :=
  match (segments text).foldl keepSegment [] with
  | [] => [slash]
  | seg :: segs => segs.foldl (writeSegment cap · false) (writeSegment cap [slash] true seg)

/-! ## The request line and the headers -/

def queryPair (pair : Bytes) : Kv :=
  match cut 61 pair with
  | some (name, value) => ⟨cstr (percentDecode name 64 true), cstr (percentDecode value 512 true)⟩
  | none => ⟨cstr (percentDecode pair 64 true), []⟩

/-- The loop over the query; a text that ends with `&` has no pair behind it. -/
def queryPairs (q : Bytes) : List Kv :=
  let pairs := q.splitOn 38
  ((if pairs.getLast? = some [] then pairs.dropLast else pairs).map queryPair).take maxQuery

def targetPath (target : Bytes) : Bytes :=
  let path := match cut 63 target with
    | some (path, _) => path
    | none => target
  pathClean (cstr (percentDecode path 512 false)) 512

def targetQuery (target : Bytes) : List Kv :=
  match cut 63 target with
  | some (_, q) => queryPairs q
  | none => []

/-- One header line; `none` for one that is passed over. -/
def headerLine (line : Bytes) : Option Kv := do
  let (name, rest) ← cut 58 line
  if name.length < 64 then
    pure ⟨cstr name, cstr ((rest.dropWhile (· = space)).take 511)⟩
  else none

def headerLines : List Bytes → List Kv → List Kv
  | [], headers => headers
  | line :: lines, headers =>
    if maxReqHeaders ≤ headers.length ∨ chomp line = [] then headers
    else headerLines lines (headers ++ (headerLine (chomp line)).toList)

/-- What `parse_headers` finds: the request and whether it is one of HTTP/1.0. -/
structure Head where
  req : Req
  http10 : Bool
  deriving DecidableEq, Repr

/-- `parse_headers` on the bytes up to the end of the headers. -/
def parseHeaders (block : Bytes) : Option Head := do
  let (line, rest) ← cut nl block
  let (method, line) ← cut space (chomp line)
  if 8 ≤ method.length then none
  else
    let (target, version) ← cut space line
    some
      { req :=
          { Req.empty with
            method := cstr method
            path := targetPath target
            query := targetQuery target
            headers := headerLines (rest.splitOn nl).dropLast [] }
        http10 := version.take 8 = str "HTTP/1.0" }

end MagiTrickle.Http
