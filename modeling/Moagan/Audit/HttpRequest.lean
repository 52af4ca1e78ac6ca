import Mathlib.Data.List.DropRight
import Moagan.Audit.Format
import Moagan.Lib.Attempts
import Moagan.Lib.Pieces
import Moagan.Json.Traced
import Moagan.Llm.Governor
import Moagan.Redact.Writer

/-!
# Reading a request (`src/audit/proxy.rs`)

* `Reader`             what is left of the connection, and the bytes of the lines so far
* `readBoundedLine`    a line, which may not be too long; the lines together may not be either
* `readHeaders`        the lines up to the empty one
* `readChunkedBody`    a body in chunks, with the trailers behind it
* `readRequest`        request line, headers and body

`Method::from_bytes` is the parameter `isMethod`.
-/

namespace Moagan.Audit.Proxy

open Attempts Pieces
open Redact (fromUtf8 newline)
open Telemetry (words toAsciiLowercase)

def MAX_HEADER_BYTES : ℕ := 64 * 1024
def MAX_LINE_BYTES : ℕ := 8 * 1024

structure RequestReadError where
  status : ℕ
  message : String
deriving DecidableEq, Repr

/-- `RequestReadError::io` -/
def RequestReadError.io (error : String) : RequestReadError := ⟨400, "malformed request: " ++ error⟩

def headersTooLarge : RequestReadError := ⟨431, "headers too large"⟩

structure ParsedRequest where
  method : Text
  target : Text
  version : Text
  headers : List (Text × Text)
  body : List UInt8
deriving DecidableEq, Repr

/-- Behind the pieces the connection is closed, or fails with an error.  `total` is `header_total`:
the bytes of the lines that were read. -/
structure Reader where
  pieces : List (Piece UInt8)
  failure : Option String
  total : ℕ

def Reader.new (pieces : List (Piece UInt8)) (failure : Option String) : Reader :=
  ⟨pieces, failure, 0⟩

/-! ## lines and bytes -/

/-- the bytes of a line are counted, and have to be a text -/
def lineRead (reader : Reader) (bytes : List UInt8) (rest : List (Piece UInt8)) :
    Except RequestReadError (Text × Reader) :=
  if MAX_HEADER_BYTES < reader.total + bytes.length then .error headersTooLarge
  else
    match fromUtf8 bytes with
    | none => .error ⟨400, "headers are not UTF-8"⟩
    | some line => .ok (line, { reader with pieces := rest, total := reader.total + bytes.length })

def readBoundedLine (reader : Reader) : Except RequestReadError (Text × Reader) :=
  match takeLine (· == newline) MAX_LINE_BYTES reader.pieces [] with
  | .tooLong => .error headersTooLarge
  | .closed bytes rest => lineRead reader bytes rest
  | .ended bytes =>
    match reader.failure with
    | some error => .error (.io error)
    | none => lineRead reader bytes []

/-- `read_exact` -/
def readExact (length : ℕ) (reader : Reader) : Except RequestReadError (List UInt8 × Reader) :=
  match takeExact length reader.pieces with
  | some (bytes, rest) => .ok (bytes, { reader with pieces := rest })
  | none => .error (.io (reader.failure.getD "early eof"))

/-- `trim_end_matches(['\r', '\n'])` -/
def trimEol (line : Text) : Text := line.rdropWhile fun c => c = '\r' || c = '\n'

/-- the line that ends the headers, and the trailers -/
def isBlank (line : Text) : Bool := line = ['\r', '\n'] || line = ['\n']

/-! ## the request line -/

def parseRequestLine (isMethod : Text → Bool) (line : Text) :
    Except RequestReadError (Text × Text × Text) :=
  match words (trimEol line) with
  | [method, target, version] =>
    if !isMethod method then .error ⟨400, "invalid HTTP method"⟩
    else if !"/".toList.isPrefixOf target || "//".toList.isPrefixOf target then
      .error ⟨400, "absolute request targets are not allowed"⟩
    else if version ≠ "HTTP/1.1".toList ∧ version ≠ "HTTP/1.0".toList then
      .error ⟨505, "unsupported HTTP version"⟩
    else .ok (method, target, version)
  | _ => .error ⟨400, "malformed request line"⟩

/-! ## the headers -/

structure Head where
  headers : List (Text × Text)
  contentLength : Option ℕ
  transferEncoding : Option Text
deriving DecidableEq, Repr

/-- `split_once(':')` -/
def splitColon : Text → Option (Text × Text)
  | [] => none
  | c :: text =>
    if c = ':' then some ([], text) else (splitColon text).map fun p => (c :: p.1, p.2)

def usizeMax : ℕ := 2 ^ 64 - 1

/-- the length that a header sets; two headers may not differ -/
def setLength (prior : Option ℕ) (value : Text) : Except RequestReadError (Option ℕ) :=
  match Governor.parseUnsigned usizeMax value with
  | .error _ => .error ⟨400, "invalid content-length"⟩
  | .ok parsed =>
    if prior.any (· ≠ parsed) then .error ⟨400, "conflicting content-length headers"⟩
    else .ok (some parsed)

def addHeader (head : Head) (line : Text) : Except RequestReadError Head :=
  match splitColon (trimEol line) with
  | none => .error ⟨400, "malformed header"⟩
  | some (name, value) =>
    let name := toAsciiLowercase (trim name)
    let value := trim value
    if name = [] then .error ⟨400, "empty header name"⟩
    else do
      let contentLength ←
        if name = "content-length".toList then setLength head.contentLength value
        else .ok head.contentLength
      .ok
        { headers := head.headers ++ [(name, value)]
          contentLength := contentLength
          transferEncoding :=
            if name = "transfer-encoding".toList then some (toAsciiLowercase value)
            else head.transferEncoding }

/-- one turn of the loop over the headers -/
def readHeader (s : Head × Reader) :
    Next (Head × Reader) (Except RequestReadError (Head × Reader)) :=
  match readBoundedLine s.2 with
  | .error e => .done (.error e)
  | .ok (line, reader) =>
    if isBlank line then .done (.ok (s.1, reader))
    else if line = [] then .done (.error ⟨400, "unexpected end of headers"⟩)
    else
      match addHeader s.1 line with
      | .error e => .done (.error e)
      | .ok head => .again (head, reader)

/-- what is left of the room for lines -/
def Reader.room (reader : Reader) : ℕ := MAX_HEADER_BYTES - reader.total

theorem lineRead_ok {reader reader' : Reader} {bytes : List UInt8} {rest : List (Piece UInt8)}
    {line : Text} (h : lineRead reader bytes rest = .ok (line, reader')) :
    reader.total + bytes.length ≤ MAX_HEADER_BYTES ∧ fromUtf8 bytes = some line ∧
      reader' = { reader with pieces := rest, total := reader.total + bytes.length } := by
  unfold lineRead at h
  by_cases hroom : MAX_HEADER_BYTES < reader.total + bytes.length
  · rw [if_pos hroom] at h
    cases h
  · rw [if_neg hroom] at h
    cases htext : fromUtf8 bytes with
    | none =>
      rw [htext] at h
      cases h
    | some text =>
      rw [htext] at h
      obtain ⟨rfl, rfl⟩ := Prod.mk.inj (Except.ok.inj h)
      exact ⟨Nat.le_of_not_lt hroom, rfl, rfl⟩

theorem lineRead_room {reader reader' : Reader} {bytes : List UInt8} {rest : List (Piece UInt8)}
    {line : Text} (h : lineRead reader bytes rest = .ok (line, reader')) (hline : line ≠ []) :
    reader'.room < reader.room := by
  obtain ⟨hroom, htext, rfl⟩ := lineRead_ok h
  have hbytes : bytes ≠ [] := by
    rintro rfl
    exact hline (Option.some.inj htext).symm
  have hpos := List.length_pos_of_ne_nil hbytes
  show MAX_HEADER_BYTES - (reader.total + bytes.length) < MAX_HEADER_BYTES - reader.total
  omega

theorem readBoundedLine_room {reader reader' : Reader} {line : Text}
    (h : readBoundedLine reader = .ok (line, reader')) (hline : line ≠ []) :
    reader'.room < reader.room := by
  unfold readBoundedLine at h
  split at h
  · cases h
  · exact lineRead_room h hline
  · split at h
    · cases h
    · exact lineRead_room h hline

theorem readHeader_room (s s' : Head × Reader) (h : readHeader s = .again s') :
    s'.2.room < s.2.room := by
  unfold readHeader at h
  split at h
  · cases h
  · rename_i line reader hline
    split at h
    · cases h
    · split at h
      · cases h
      · rename_i hne
        split at h
        · cases h
        · obtain rfl := Next.again.inj h
          exact readBoundedLine_room hline hne

def readHeaders (s : Head × Reader) : Except RequestReadError (Head × Reader) :=
  iterate readHeader (·.2.room) readHeader_room s

/-! ## the body -/

def readNBody (cap length : ℕ) (reader : Reader) : Except RequestReadError (List UInt8) :=
  if cap < length then .error ⟨413, "payload too large"⟩
  else (readExact length reader).map Prod.fst

def hexDigit? (c : Char) : Option ℕ :=
  if '0' ≤ c ∧ c ≤ '9' then some (c.toNat - '0'.toNat)
  else if 'a' ≤ c ∧ c ≤ 'f' then some (c.toNat - 'a'.toNat + 10)
  else if 'A' ≤ c ∧ c ≤ 'F' then some (c.toNat - 'A'.toNat + 10)
  else none

/-- the digits behind those that make up `n` -/
def parseHex : ℕ → Text → Option ℕ
  | n, [] => some n
  | n, c :: rest =>
    (hexDigit? c).bind fun d => if usizeMax < 16 * n + d then none else parseHex (16 * n + d) rest

/-- `usize::from_str_radix` in base 16, which takes a sign -/
def fromStrRadix16 : Text → Option ℕ
  | [] => none
  | ['+'] | ['-'] => none
  | '+' :: rest => parseHex 0 rest
  | text => parseHex 0 text

/-- what stands in front of the extensions -/
def chunkSize (line : Text) : Option ℕ :=
  fromStrRadix16 (trim ((trimEol line).takeWhile (· ≠ ';')))

def readTrailer (reader : Reader) : Next Reader (Except RequestReadError Reader) :=
  match readBoundedLine reader with
  | .error e => .done (.error e)
  | .ok (trailer, reader) =>
    if isBlank trailer then .done (.ok reader)
    else if trailer = [] ∨ ':' ∉ trailer then .done (.error ⟨400, "malformed chunk trailer"⟩)
    else .again reader

theorem readTrailer_room (reader reader' : Reader) (h : readTrailer reader = .again reader') :
    reader'.room < reader.room := by
  unfold readTrailer at h
  split at h
  · cases h
  · rename_i trailer rest hline
    split at h
    · cases h
    · split at h
      · cases h
      · rename_i hbad
        obtain rfl := Next.again.inj h
        exact readBoundedLine_room hline fun hnil => hbad (.inl hnil)

def readTrailers (reader : Reader) : Except RequestReadError Reader :=
  iterate readTrailer Reader.room readTrailer_room reader

/-- The sum with the size does not overflow unseen: it would be over the cap as well. -/
def readChunk (cap : ℕ) (s : List UInt8 × Reader) :
    Next (List UInt8 × Reader) (Except RequestReadError (List UInt8 × Reader)) :=
  match readBoundedLine s.2 with
  | .error e => .done (.error e)
  | .ok (line, reader) =>
    match chunkSize line with
    | none => .done (.error ⟨400, "invalid chunk size"⟩)
    | some 0 => .done ((readTrailers reader).map fun reader => (s.1, reader))
    | some size =>
      if cap < s.1.length + size then .done (.error ⟨413, "payload too large"⟩)
      else
        match readExact size reader with
        | .error e => .done (.error e)
        | .ok (data, reader) =>
          match readExact 2 reader with
          | .error e => .done (.error e)
          | .ok (crlf, reader) =>
            if crlf ≠ [13, 10] then .done (.error ⟨400, "malformed chunk terminator"⟩)
            else .again (s.1 ++ data, reader)

theorem readExact_room {length : ℕ} {reader reader' : Reader} {bytes : List UInt8}
    (h : readExact length reader = .ok (bytes, reader')) : reader'.room = reader.room := by
  unfold readExact at h
  split at h
  · obtain ⟨-, rfl⟩ := Prod.mk.inj (Except.ok.inj h)
    rfl
  · cases h

/-- what a turn that is not the last one has read -/
theorem readChunk_again {cap : ℕ} {s s' : List UInt8 × Reader} (h : readChunk cap s = .again s') :
    ∃ line size data r₁ r₂, readBoundedLine s.2 = .ok (line, r₁) ∧ chunkSize line = some size ∧
      size ≠ 0 ∧ s.1.length + size ≤ cap ∧ readExact size r₁ = .ok (data, r₂) ∧
      readExact 2 r₂ = .ok ([13, 10], s'.2) ∧ s'.1 = s.1 ++ data := by
  unfold readChunk at h
  split at h
  · cases h
  · rename_i line r₁ hline
    split at h
    · cases h
    · cases h
    · rename_i size hzero hsize
      split at h
      · cases h
      · rename_i hcap
        split at h
        · cases h
        · rename_i data r₂ hdata
          split at h
          · cases h
          · rename_i crlf r₃ hcrlf
            split at h
            · cases h
            · rename_i heq
              obtain rfl := Next.again.inj h
              obtain rfl := not_not.mp heq
              exact ⟨line, size, data, r₁, r₂, hline, hsize, hzero,
                Nat.le_of_not_lt hcap, hdata, hcrlf, rfl⟩

theorem readChunk_room (cap : ℕ) (s s' : List UInt8 × Reader) (h : readChunk cap s = .again s') :
    s'.2.room < s.2.room := by
  obtain ⟨line, size, data, r₁, r₂, hline, hsize, -, -, hdata, hcrlf, -⟩ := readChunk_again h
  have hne : line ≠ [] := by
    rintro rfl
    have hnone : chunkSize [] = none := rfl
    rw [hnone] at hsize
    cases hsize
  rw [readExact_room hcrlf, readExact_room hdata]
  exact readBoundedLine_room hline hne

/-- `s.1` is what the chunks so far hold -/
def readChunks (cap : ℕ) (s : List UInt8 × Reader) :
    Except RequestReadError (List UInt8 × Reader) :=
  iterate (readChunk cap) (·.2.room) (readChunk_room cap) s

def readChunkedBody (cap : ℕ) (reader : Reader) : Except RequestReadError (List UInt8) :=
  (readChunks cap ([], reader)).map Prod.fst

def readBody (cap : ℕ) (head : Head) (reader : Reader) : Except RequestReadError (List UInt8) :=
  match head.transferEncoding with
  | some encoding =>
    if encoding = "chunked".toList then readChunkedBody cap reader
    else .error ⟨501, "unsupported transfer encoding"⟩
  | none =>
    match head.contentLength with
    | some length => readNBody cap length reader
    | none => .ok []

def readRequest (isMethod : Text → Bool) (cap : ℕ) (reader : Reader) :
    Except RequestReadError ParsedRequest := do
  let (requestLine, reader) ← readBoundedLine reader
  let (method, target, version) ← parseRequestLine isMethod requestLine
  let (head, reader) ← readHeaders (⟨[], none, none⟩, reader)
  if head.contentLength.isSome && head.transferEncoding.isSome then
    .error ⟨400, "ambiguous request framing"⟩
  else do
    let body ← readBody cap head reader
    return ⟨method, target, version, head.headers, body⟩

end Moagan.Audit.Proxy
