import Moagan.Audit.HttpFraming

/-!
# Requests that are written out (`src/audit/proxy.rs`)

* `Request`, `Request.render`   a request as a client means it, and its bytes
* `Request.Valid`               what a client has to keep to
* `read_render`                 the proxy reads what the client means
-/

namespace Moagan.Audit.Proxy

open Attempts Pieces
open Redact (utf8 fromUtf8 fromUtf8_utf8 utf8_append mem_utf8_newline newline)
open Telemetry (words words_append_cons words_solid Solid toAsciiLowercase)

def crlf : Text := ['\r', '\n']

/-- a line on the wire -/
def lineBytes (line : Text) : List UInt8 := utf8 line ++ [13, 10]

def lineSize (line : Text) : ℕ := (lineBytes line).length

/-- a chunk, with the line that says its size -/
structure Chunk where
  sizeLine : Text
  data : List UInt8

inductive Body where
  | plain (data : List UInt8)
  | chunked (chunks : List Chunk) (lastLine : Text) (trailers : List Text)

def Body.data : Body → List UInt8
  | plain data => data
  | chunked chunks _ _ => chunks.flatMap Chunk.data

def Body.lines : Body → List Text
  | plain _ => []
  | chunked chunks lastLine trailers => chunks.map Chunk.sizeLine ++ lastLine :: trailers ++ [[]]

def Chunk.render (c : Chunk) : List UInt8 := lineBytes c.sizeLine ++ c.data ++ [13, 10]

def Body.render : Body → List UInt8
  | plain data => data
  | chunked chunks lastLine trailers =>
    chunks.flatMap Chunk.render ++ lineBytes lastLine ++ trailers.flatMap lineBytes ++ lineBytes []

/-- a header is what stands in front of the colon, and what stands behind it -/
structure Request where
  method : Text
  target : Text
  version : Text
  headers : List (Text × Text)
  body : Body

def headerLine (h : Text × Text) : Text := h.1 ++ ':' :: h.2

/-- a header as it is read: the name in lower case, and no blanks around name and value -/
def headerRead (h : Text × Text) : Text × Text := (toAsciiLowercase (trim h.1), trim h.2)

def Request.requestLine (q : Request) : Text :=
  q.method ++ ' ' :: (q.target ++ ' ' :: q.version)

def Request.lines (q : Request) : List Text :=
  q.requestLine :: (q.headers.map headerLine ++ [] :: q.body.lines)

def Request.render (q : Request) : List UInt8 :=
  lineBytes q.requestLine ++ (q.headers.flatMap fun h => lineBytes (headerLine h)) ++
    lineBytes [] ++ q.body.render

def Request.parsed (q : Request) : ParsedRequest :=
  ⟨q.method, q.target, q.version, q.headers.map headerRead, q.body.data⟩

/-- the headers announce the body as it is written -/
def Body.Announced (headers : List (Text × Text)) : Body → Prop
  | plain data => valuesOf "transfer-encoding" headers = [] ∧
      (data ≠ [] → valuesOf "content-length" headers ≠ []) ∧
      ∀ value ∈ valuesOf "content-length" headers,
        Governor.parseUnsigned usizeMax value = .ok data.length
  | chunked chunks lastLine trailers => valuesOf "content-length" headers = [] ∧
      (∃ value, (valuesOf "transfer-encoding" headers).getLast? = some value ∧
        toAsciiLowercase value = "chunked".toList) ∧
      (∀ c ∈ chunks, chunkSize c.sizeLine = some c.data.length ∧ c.data ≠ []) ∧
      chunkSize lastLine = some 0 ∧ ∀ t ∈ trailers, ':' ∈ t

structure Request.Valid (isMethod : Text → Bool) (cap : ℕ) (q : Request) : Prop where
  method : Solid q.method ∧ isMethod q.method = true
  target : Solid q.target ∧ "/".toList <+: q.target ∧ ¬ "//".toList <+: q.target
  version : q.version = "HTTP/1.1".toList ∨ q.version = "HTTP/1.0".toList
  names : ∀ h ∈ q.headers, ':' ∉ h.1 ∧ (headerRead h).1 ≠ []
  body : q.body.Announced (q.headers.map headerRead)
  cap : q.body.data.length ≤ cap
  lines : ∀ line ∈ q.lines, '\n' ∉ line ∧ lineSize line ≤ MAX_LINE_BYTES
  total : (q.lines.map lineSize).sum ≤ MAX_HEADER_BYTES

/-! ## one line -/

theorem lineSize_eq (line : Text) : lineSize line = (utf8 line).length + 2 := List.length_append

theorem read_line {reader : Reader} {line : Text} {rest : List UInt8}
    (h : items reader.pieces = lineBytes line ++ rest) (hline : '\n' ∉ line)
    (hsize : lineSize line ≤ MAX_LINE_BYTES)
    (htotal : reader.total + lineSize line ≤ MAX_HEADER_BYTES) :
    ∃ reader', readBoundedLine reader = .ok (line ++ crlf, reader') ∧
      items reader'.pieces = rest ∧ reader'.total = reader.total + lineSize line := by
  have hitems : items reader.pieces = (utf8 line ++ [13]) ++ newline :: rest := by
    rw [h, lineBytes]
    simp [newline]
  have hfree : ∀ b ∈ utf8 line ++ [13], (b == newline) = false := by
    intro b hb
    obtain hb | hb := List.mem_append.mp hb
    · by_cases hn : b = newline
      · exact absurd (mem_utf8_newline (hn ▸ hb)) hline
      · simpa using hn
    · obtain rfl := List.mem_singleton.mp hb
      rfl
  rw [lineSize_eq] at hsize htotal ⊢
  obtain ⟨ps, htake, hps⟩ := takeLine_closed hitems hfree (beq_self_eq_true newline)
    (show (utf8 line ++ [13]).length < MAX_LINE_BYTES by rw [List.length_append]; simp; omega)
  have hbytes : utf8 line ++ [13] ++ [newline] = utf8 (line ++ crlf) := by
    rw [utf8_append, List.append_assoc]
    rfl
  have hlength : (utf8 (line ++ crlf)).length = (utf8 line).length + 2 := by
    rw [← hbytes]
    simp
  refine ⟨⟨ps, reader.failure, reader.total + ((utf8 line).length + 2)⟩, ?_, hps, rfl⟩
  rw [readBoundedLine, htake]
  dsimp only
  rw [hbytes, lineRead, hlength, if_neg (by omega), fromUtf8_utf8]

theorem isBlank_crlf {line : Text} (h : line ≠ []) : isBlank (line ++ crlf) = false := by
  have hpos := List.length_pos_of_ne_nil h
  have hne : ∀ blank : Text, blank.length ≤ 2 → line ++ crlf ≠ blank := by
    intro blank hle heq
    have hlen : line.length + 2 = blank.length := by
      rw [← heq, List.length_append]
      rfl
    omega
  unfold isBlank
  rw [decide_eq_false (hne _ (by decide)), decide_eq_false (hne _ (by decide))]
  rfl

theorem trimEol_crlf (line : Text) : trimEol (line ++ crlf) = trimEol line := by
  unfold trimEol crlf
  rw [List.append_cons, List.rdropWhile_concat_pos _ _ _ (by rfl),
    List.rdropWhile_concat_pos _ _ _ (by rfl)]

/-! ## the headers -/

/-- blanks at the end do not matter -/
theorem trim_append {t s : Text} (hs : ∀ c ∈ s, isWhitespace c = true) :
    trim (t ++ s) = trim t := by
  have hend : ∀ x : Text, trimEnd (x ++ s) = trimEnd x := by
    intro x
    unfold trimEnd
    rw [List.reverse_append, List.dropWhile_append]
    have hnil : s.reverse.dropWhile isWhitespace = [] :=
      List.dropWhile_eq_nil_iff.mpr fun c hc => hs c (List.mem_reverse.mp hc)
    rw [hnil]
    rfl
  unfold trim
  rw [List.dropWhile_append]
  by_cases h : (t.dropWhile isWhitespace).isEmpty
  · rw [if_pos h, List.isEmpty_iff.mp h, List.dropWhile_eq_nil_iff.mpr hs]
  · rw [if_neg h, hend]

theorem trim_trimEol (t : Text) : trim (trimEol t) = trim t := by
  have hsplit : trimEol t ++ t.rtakeWhile (fun c => c = '\r' || c = '\n') = t :=
    List.rdropWhile_append_rtakeWhile ..
  have hblank : ∀ c ∈ t.rtakeWhile (fun c => c = '\r' || c = '\n'), isWhitespace c = true := by
    intro c hc
    have hmem := List.mem_rtakeWhile_imp hc
    rw [Bool.or_eq_true, decide_eq_true_eq, decide_eq_true_eq] at hmem
    obtain rfl | rfl := hmem
    · rfl
    · rfl
  rw [← trim_append hblank, hsplit]

theorem splitColon_append {name : Text} (h : ':' ∉ name) (rest : Text) :
    splitColon (name ++ ':' :: rest) = some (name, rest) := by
  induction name with
  | nil => rfl
  | cons c name ih =>
    have hc : c ≠ ':' := fun heq => h (heq ▸ List.mem_cons_self)
    rw [List.cons_append, splitColon, if_neg hc, ih fun hm => h (List.mem_cons_of_mem _ hm)]
    rfl

theorem rdropWhile_cons {p : Char → Bool} {a : Char} (ha : p a = false) (l r : Text) :
    (l ++ a :: r).rdropWhile p = l ++ a :: r.rdropWhile p := by
  have hneg : ∀ {c : Char}, p c = false → ¬ p c = true := fun h => Bool.eq_false_iff.mp h
  induction r using List.reverseRecOn with
  | nil => exact List.rdropWhile_concat_neg _ _ _ (hneg ha)
  | append_singleton r c ih =>
    rw [← List.cons_append, ← List.append_assoc]
    cases hc : p c with
    | true => rw [List.rdropWhile_concat_pos _ _ _ hc, List.rdropWhile_concat_pos _ _ _ hc, ih]
    | false =>
      rw [List.rdropWhile_concat_neg _ _ _ (hneg hc), List.rdropWhile_concat_neg _ _ _ (hneg hc),
        List.append_assoc, List.cons_append]

/-- a header line is split at its colon -/
theorem split_headerLine {h : Text × Text} (hname : ':' ∉ h.1) :
    splitColon (trimEol (headerLine h ++ crlf)) = some (h.1, trimEol h.2) := by
  have hcolon : trimEol (headerLine h) = h.1 ++ ':' :: trimEol h.2 := rdropWhile_cons rfl _ _
  rw [trimEol_crlf, hcolon, splitColon_append hname]

/-- the lengths of the headers agree -/
def LengthsAgree (headers : List (Text × Text)) : Prop :=
  ∃ n, ∀ value ∈ valuesOf "content-length" headers, Governor.parseUnsigned usizeMax value = .ok n

theorem setLength_agree {head : Head} (hi : HeadOk head) {h : Text × Text}
    (hname : (headerRead h).1 = "content-length".toList)
    (hagree : LengthsAgree (head.headers ++ [headerRead h])) :
    ∃ n, setLength head.contentLength (headerRead h).2 = .ok (some n) := by
  obtain ⟨n, hn⟩ := hagree
  rw [valuesOf_concat, if_pos hname] at hn
  have hvalue := hn _ (List.mem_append_right _ List.mem_cons_self)
  refine ⟨n, ?_⟩
  unfold setLength
  rw [hvalue]
  dsimp only
  cases hl : head.contentLength with
  | none => rfl
  | some m =>
    have hne : valuesOf "content-length" head.headers ≠ [] := by
      intro hnil
      rw [hi.noLength.mpr hnil] at hl
      cases hl
    obtain ⟨value, hmem⟩ := List.exists_mem_of_ne_nil _ hne
    obtain ⟨m', hm', hparsed⟩ := hi.length value hmem
    rw [hn value (List.mem_append_left _ hmem)] at hparsed
    rw [hl] at hm'
    obtain rfl := Except.ok.inj hparsed
    obtain rfl := Option.some.inj hm'
    rw [if_neg (by simp)]

theorem addHeader_line {head : Head} (hi : HeadOk head) {h : Text × Text} (hcolon : ':' ∉ h.1)
    (hname : (headerRead h).1 ≠ []) (hagree : LengthsAgree (head.headers ++ [headerRead h])) :
    ∃ head', addHeader head (headerLine h ++ crlf) = .ok head' ∧
      head'.headers = head.headers ++ [headerRead h] := by
  unfold addHeader
  rw [split_headerLine hcolon]
  dsimp only
  rw [trim_trimEol]
  have hne : toAsciiLowercase (trim h.1) ≠ [] := hname
  rw [if_neg hne]
  by_cases hlength : toAsciiLowercase (trim h.1) = "content-length".toList
  · obtain ⟨n, hn⟩ := setLength_agree hi hlength hagree
    have hn' : setLength head.contentLength (trim h.2) = .ok (some n) := hn
    rw [if_pos hlength, hn']
    exact ⟨_, rfl, rfl⟩
  · rw [if_neg hlength]
    exact ⟨_, rfl, rfl⟩

theorem lengthsAgree_append {hs hs' : List (Text × Text)} (h : LengthsAgree (hs ++ hs')) :
    LengthsAgree hs := by
  obtain ⟨n, hn⟩ := h
  refine ⟨n, fun value hvalue => hn value ?_⟩
  unfold valuesOf
  rw [List.filter_append, List.map_append]
  exact List.mem_append_left _ hvalue

/-- the lines of the headers, up to the empty one -/
theorem readHeaders_lines {hs : List (Text × Text)} {head : Head} {reader : Reader}
    {rest : List UInt8} (hi : HeadOk head)
    (hitems : items reader.pieces =
      (hs.flatMap fun h => lineBytes (headerLine h)) ++ lineBytes [] ++ rest)
    (hnames : ∀ h ∈ hs, ':' ∉ h.1 ∧ (headerRead h).1 ≠ [])
    (hagree : LengthsAgree (head.headers ++ hs.map headerRead))
    (hlines : ∀ line ∈ hs.map headerLine ++ [[]], '\n' ∉ line ∧ lineSize line ≤ MAX_LINE_BYTES)
    (htotal : reader.total + ((hs.map headerLine ++ [[]]).map lineSize).sum ≤ MAX_HEADER_BYTES) :
    ∃ head' reader', readHeaders (head, reader) = .ok (head', reader') ∧ HeadOk head' ∧
      head'.headers = head.headers ++ hs.map headerRead ∧ items reader'.pieces = rest ∧
      reader'.total = reader.total + ((hs.map headerLine ++ [[]]).map lineSize).sum := by
  induction hs generalizing head reader with
  | nil =>
    obtain ⟨hn, hsize⟩ := hlines [] List.mem_cons_self
    obtain ⟨reader', hread, hrest, htotal'⟩ := read_line hitems hn hsize htotal
    have hdone : readHeader (head, reader) = .done (.ok (head, reader')) := by
      unfold readHeader
      rw [hread]
      rfl
    exact ⟨head, reader', iterate_done _ _ readHeader_room hdone, hi, (List.append_nil _).symm,
      hrest, htotal'⟩
  | cons h hs ih =>
    have hsum : (((h :: hs).map headerLine ++ [[]]).map lineSize).sum =
        lineSize (headerLine h) + ((hs.map headerLine ++ [[]]).map lineSize).sum := rfl
    rw [hsum] at htotal ⊢
    obtain ⟨hn, hsize⟩ := hlines (headerLine h) List.mem_cons_self
    rw [List.flatMap_cons, List.append_assoc, List.append_assoc] at hitems
    obtain ⟨r₁, hread, hrest, htotal₁⟩ := read_line hitems hn hsize (by omega)
    obtain ⟨hcolon, hname⟩ := hnames h List.mem_cons_self
    rw [List.map_cons, ← List.singleton_append, ← List.append_assoc] at hagree
    obtain ⟨head₁, hadd, hheaders⟩ := addHeader_line hi hcolon hname (lengthsAgree_append hagree)
    have hne : headerLine h ≠ [] := List.append_ne_nil_of_right_ne_nil _ (List.cons_ne_nil _ _)
    have hne' : headerLine h ++ crlf ≠ [] := List.append_ne_nil_of_left_ne_nil hne _
    have hagain : readHeader (head, reader) = .again (head₁, r₁) := by
      unfold readHeader
      rw [hread]
      dsimp only
      rw [isBlank_crlf hne, if_neg Bool.false_ne_true, if_neg hne', hadd]
    rw [← List.append_assoc] at hrest
    obtain ⟨head', reader', hok, hi', hheaders', hrest', htotal'⟩ :=
      ih (addHeader_headOk hi hadd) hrest (fun h' hh' => hnames h' (List.mem_cons_of_mem _ hh'))
        (hheaders ▸ hagree) (fun l hl => hlines l (List.mem_cons_of_mem _ hl)) (by omega)
    refine ⟨head', reader', ?_, hi', ?_, hrest', by omega⟩
    · rw [← hok]
      exact iterate_again _ _ readHeader_room hagain
    · rw [hheaders', hheaders, List.map_cons, List.append_assoc]
      rfl

/-! ## the body -/

theorem read_exact {reader : Reader} {x rest : List UInt8} (h : items reader.pieces = x ++ rest) :
    ∃ reader', readExact x.length reader = .ok (x, reader') ∧ items reader'.pieces = rest ∧
      reader'.total = reader.total := by
  obtain ⟨ps, htake, hps⟩ := takeExact_append h
  refine ⟨{ reader with pieces := ps }, ?_, hps, rfl⟩
  rw [readExact, htake]

theorem readTrailers_lines {ts : List Text} {reader : Reader} {rest : List UInt8}
    (hitems : items reader.pieces = ts.flatMap lineBytes ++ lineBytes [] ++ rest)
    (hcolon : ∀ t ∈ ts, ':' ∈ t)
    (hlines : ∀ line ∈ ts ++ [[]], '\n' ∉ line ∧ lineSize line ≤ MAX_LINE_BYTES)
    (htotal : reader.total + ((ts ++ [[]]).map lineSize).sum ≤ MAX_HEADER_BYTES) :
    ∃ reader', readTrailers reader = .ok reader' := by
  induction ts generalizing reader with
  | nil =>
    obtain ⟨hn, hsize⟩ := hlines [] List.mem_cons_self
    obtain ⟨reader', hread, -, -⟩ := read_line hitems hn hsize htotal
    have hdone : readTrailer reader = .done (.ok reader') := by
      unfold readTrailer
      rw [hread]
      rfl
    exact ⟨reader', iterate_done _ _ readTrailer_room hdone⟩
  | cons t ts ih =>
    have hsum : ((t :: ts ++ [[]]).map lineSize).sum =
        lineSize t + ((ts ++ [[]]).map lineSize).sum := rfl
    rw [hsum] at htotal
    obtain ⟨hn, hsize⟩ := hlines t List.mem_cons_self
    rw [List.flatMap_cons, List.append_assoc, List.append_assoc] at hitems
    obtain ⟨r₁, hread, hrest, htotal₁⟩ := read_line hitems hn hsize (by omega)
    rw [← List.append_assoc] at hrest
    have hmem : ':' ∈ t := hcolon t List.mem_cons_self
    have hne : t ≠ [] := List.ne_nil_of_mem hmem
    have hagain : readTrailer reader = .again r₁ := by
      unfold readTrailer
      rw [hread]
      dsimp only
      rw [isBlank_crlf hne, if_neg Bool.false_ne_true, if_neg]
      rintro (hnil | hno)
      · exact List.append_ne_nil_of_left_ne_nil hne _ hnil
      · exact hno (List.mem_append_left _ hmem)
    obtain ⟨reader', hok⟩ := ih hrest (fun t ht => hcolon t (List.mem_cons_of_mem _ ht))
      (fun l hl => hlines l (List.mem_cons_of_mem _ hl)) (by omega)
    exact ⟨reader', (iterate_again _ _ readTrailer_room hagain).trans hok⟩

theorem chunkSize_crlf (line : Text) : chunkSize (line ++ crlf) = chunkSize line := by
  unfold chunkSize
  rw [trimEol_crlf]

/-- the chunks, the last one and the trailers -/
theorem readChunks_lines {cap : ℕ} {chunks : List Chunk} {lastLine : Text} {trailers : List Text}
    {body : List UInt8} {reader : Reader} {rest : List UInt8}
    (hitems : items reader.pieces = chunks.flatMap Chunk.render ++
      (lineBytes lastLine ++ (trailers.flatMap lineBytes ++ lineBytes [] ++ rest)))
    (hchunks : ∀ c ∈ chunks, chunkSize c.sizeLine = some c.data.length ∧ c.data ≠ [])
    (hlast : chunkSize lastLine = some 0) (hcolon : ∀ t ∈ trailers, ':' ∈ t)
    (hcap : (body ++ chunks.flatMap Chunk.data).length ≤ cap)
    (hlines : ∀ line ∈ chunks.map Chunk.sizeLine ++ lastLine :: (trailers ++ [[]]),
      '\n' ∉ line ∧ lineSize line ≤ MAX_LINE_BYTES)
    (htotal : reader.total +
      ((chunks.map Chunk.sizeLine ++ lastLine :: (trailers ++ [[]])).map lineSize).sum ≤
        MAX_HEADER_BYTES) :
    ∃ reader', readChunks cap (body, reader) =
      .ok (body ++ chunks.flatMap Chunk.data, reader') := by
  induction chunks generalizing body reader with
  | nil =>
    have hsum : ((([] : List Chunk).map Chunk.sizeLine ++ lastLine :: (trailers ++ [[]])).map
        lineSize).sum = lineSize lastLine + ((trailers ++ [[]]).map lineSize).sum := rfl
    rw [hsum] at htotal
    obtain ⟨hn, hsize⟩ := hlines lastLine List.mem_cons_self
    obtain ⟨r₁, hread, hrest, htotal₁⟩ := read_line hitems hn hsize (by omega)
    obtain ⟨reader', htrailers⟩ := readTrailers_lines hrest hcolon
      (fun l hl => hlines l (List.mem_cons_of_mem _ hl)) (by omega)
    have hdone : readChunk cap (body, reader) = .done (.ok (body, reader')) := by
      unfold readChunk
      rw [hread]
      dsimp only
      rw [chunkSize_crlf, hlast, htrailers]
      rfl
    rw [List.flatMap_nil, List.append_nil]
    exact ⟨reader', iterate_done _ _ (readChunk_room cap) hdone⟩
  | cons c chunks ih =>
    have hsum : (((c :: chunks).map Chunk.sizeLine ++ lastLine :: (trailers ++ [[]])).map
        lineSize).sum = lineSize c.sizeLine +
          ((chunks.map Chunk.sizeLine ++ lastLine :: (trailers ++ [[]])).map lineSize).sum := rfl
    rw [hsum] at htotal
    obtain ⟨hn, hsize⟩ := hlines c.sizeLine List.mem_cons_self
    obtain ⟨hdata, hne⟩ := hchunks c List.mem_cons_self
    rw [List.flatMap_cons, Chunk.render, List.append_assoc, List.append_assoc, List.append_assoc]
      at hitems
    obtain ⟨r₁, hread, hrest₁, htotal₁⟩ := read_line hitems hn hsize (by omega)
    obtain ⟨r₂, hread₂, hrest₂, htotal₂⟩ := read_exact hrest₁
    obtain ⟨r₃, hread₃, hrest₃, htotal₃⟩ := read_exact hrest₂
    rw [List.flatMap_cons, ← List.append_assoc] at hcap ⊢
    have hle : ¬ cap < body.length + c.data.length := by
      rw [List.length_append, List.length_append] at hcap
      omega
    have hagain : readChunk cap (body, reader) = .again (body ++ c.data, r₃) := by
      have hpos := List.length_pos_of_ne_nil hne
      unfold readChunk
      rw [hread]
      dsimp only
      rw [chunkSize_crlf, hdata]
      split
      · rename_i heq
        cases heq
      · rename_i heq
        have := Option.some.inj heq
        omega
      · rename_i size _ heq
        obtain rfl := Option.some.inj heq
        rw [if_neg hle, hread₂]
        dsimp only
        rw [show readExact 2 r₂ = .ok ([13, 10], r₃) from hread₃]
        rfl
    obtain ⟨reader', hok⟩ := ih hrest₃ (fun c hc => hchunks c (List.mem_cons_of_mem _ hc)) hcap
      (fun l hl => hlines l (List.mem_cons_of_mem _ hl)) (by omega)
    exact ⟨reader', (iterate_again _ _ (readChunk_room cap) hagain).trans hok⟩

theorem readBody_render {cap : ℕ} {head : Head} {body : Body} {reader : Reader} {rest : List UInt8}
    (hi : HeadOk head) (hannounced : body.Announced head.headers)
    (hitems : items reader.pieces = body.render ++ rest) (hcap : body.data.length ≤ cap)
    (hlines : ∀ line ∈ body.lines, '\n' ∉ line ∧ lineSize line ≤ MAX_LINE_BYTES)
    (htotal : reader.total + (body.lines.map lineSize).sum ≤ MAX_HEADER_BYTES) :
    (head.contentLength.isSome && head.transferEncoding.isSome) = false ∧
      readBody cap head reader = .ok body.data := by
  have hencoding := hi.encoding
  cases body with
  | plain data =>
    obtain ⟨hnone, hsome, hvalues⟩ := hannounced
    rw [hnone] at hencoding
    have ht : head.transferEncoding = none := hencoding
    rw [ht, Option.isSome_none, Bool.and_false]
    refine ⟨rfl, ?_⟩
    unfold readBody
    rw [ht]
    dsimp only
    cases hl : head.contentLength with
    | none =>
      have hdata : data = [] := not_not.mp fun hne => hsome hne (hi.noLength.mp hl)
      rw [hdata]
      rfl
    | some n =>
      have hne : valuesOf "content-length" head.headers ≠ [] := by
        intro hnil
        rw [hi.noLength.mpr hnil] at hl
        cases hl
      obtain ⟨value, hmem⟩ := List.exists_mem_of_ne_nil _ hne
      obtain ⟨m, hm, hparsed⟩ := hi.length value hmem
      rw [hvalues value hmem] at hparsed
      rw [hl] at hm
      obtain rfl := Option.some.inj hm
      obtain rfl := Except.ok.inj hparsed
      have hitems' : items reader.pieces = data ++ rest := hitems
      obtain ⟨reader', hread, -, -⟩ := read_exact hitems'
      have hle : ¬ cap < data.length := Nat.not_lt.mpr hcap
      dsimp only
      rw [readNBody, if_neg hle, hread]
      rfl
  | chunked chunks lastLine trailers =>
    obtain ⟨hnone, ⟨value, hlast, hvalue⟩, hchunks, hzero, hcolon⟩ := hannounced
    rw [hlast] at hencoding
    have ht : head.transferEncoding = some "chunked".toList := by
      rw [hencoding, Option.map_some, hvalue]
    rw [hi.noLength.mpr hnone]
    refine ⟨rfl, ?_⟩
    have hlines' : (Body.chunked chunks lastLine trailers).lines =
        chunks.map Chunk.sizeLine ++ lastLine :: (trailers ++ [[]]) := List.append_assoc ..
    rw [hlines'] at hlines htotal
    have hitems' : items reader.pieces = chunks.flatMap Chunk.render ++
        (lineBytes lastLine ++ (trailers.flatMap lineBytes ++ lineBytes [] ++ rest)) := by
      rw [hitems, Body.render]
      simp only [List.append_assoc]
    have hcap' : ([] ++ chunks.flatMap Chunk.data).length ≤ cap := hcap
    obtain ⟨reader', hok⟩ :=
      readChunks_lines hitems' hchunks hzero hcolon hcap' hlines htotal
    unfold readBody
    rw [ht]
    dsimp only
    rw [if_pos rfl, readChunkedBody, hok]
    rfl

/-! ## the request -/

/-- a text is looked through, not the characters there are -/
theorem solid_of_all {text : Text} (hne : text ≠ [])
    (h : text.all (fun c => !isWhitespace c) = true) : Solid text :=
  ⟨hne, fun c hc => by simpa using List.all_eq_true.mp h c hc⟩

theorem parseRequestLine_render {isMethod : Text → Bool} {cap : ℕ} {q : Request}
    (hq : q.Valid isMethod cap) :
    parseRequestLine isMethod (q.requestLine ++ crlf) = .ok (q.method, q.target, q.version) := by
  have hversion : Solid q.version ∧ trimEol q.requestLine = q.requestLine := by
    obtain ⟨front, c, hv, hsolid, hc⟩ : ∃ front c, q.version = front ++ [c] ∧ Solid q.version ∧
        ¬ (c = '\r' || c = '\n') = true := by
      obtain hv | hv := hq.version
      · exact ⟨"HTTP/1.".toList, '1', hv, hv ▸ solid_of_all (by decide) (by decide), by decide⟩
      · exact ⟨"HTTP/1.".toList, '0', hv, hv ▸ solid_of_all (by decide) (by decide), by decide⟩
    refine ⟨hsolid, ?_⟩
    unfold Request.requestLine
    rw [hv, ← List.cons_append, ← List.append_assoc, ← List.cons_append, ← List.append_assoc]
    exact List.rdropWhile_concat_neg _ _ _ hc
  obtain ⟨hsolid, htrim⟩ := hversion
  have hwords : words (trimEol (q.requestLine ++ crlf)) = [q.method, q.target, q.version] := by
    rw [trimEol_crlf, htrim, Request.requestLine, words_append_cons _ _ (by rfl),
      words_append_cons _ _ (by rfl), words_solid hq.method.1, words_solid hq.target.1,
      words_solid hsolid]
    rfl
  obtain ⟨-, hslash, hslashes⟩ := hq.target
  have hno : "//".toList.isPrefixOf q.target = false :=
    Bool.eq_false_iff.mpr fun h => hslashes (List.isPrefixOf_iff_prefix.mp h)
  unfold parseRequestLine
  rw [hwords]
  dsimp only
  rw [hq.method.2, List.isPrefixOf_iff_prefix.mpr hslash, hno, if_neg (by decide),
    if_neg (by decide), if_neg]
  intro ⟨h, h'⟩
  obtain hv | hv := hq.version
  · exact h hv
  · exact h' hv

theorem announced_agree {headers : List (Text × Text)} {body : Body}
    (h : body.Announced headers) : LengthsAgree headers := by
  cases body with
  | plain data =>
    obtain ⟨-, -, hvalues⟩ := h
    exact ⟨data.length, hvalues⟩
  | chunked chunks lastLine trailers =>
    obtain ⟨hnone, -⟩ := h
    exact ⟨0, fun value hvalue => absurd (hnone ▸ hvalue) List.not_mem_nil⟩

theorem sum_lines (q : Request) : (q.lines.map lineSize).sum = lineSize q.requestLine +
    ((q.headers.map headerLine ++ [[]]).map lineSize).sum + (q.body.lines.map lineSize).sum := by
  unfold Request.lines
  simp only [List.map_cons, List.map_append, List.sum_cons, List.sum_append, List.map_nil,
    List.sum_nil]
  omega

/-- **The proxy reads what the client means**: a request that keeps to the limits, with its body
behind a length or in chunks, cut into pieces in any way and with anything behind it. -/
theorem readRequest_render {isMethod : Text → Bool} {cap : ℕ} {q : Request}
    (hq : q.Valid isMethod cap) {ps : List (Piece UInt8)} {rest : List UInt8}
    (hps : items ps = q.render ++ rest) (failure : Option String) :
    readRequest isMethod cap (.new ps failure) = .ok q.parsed := by
  have htotal := hq.total
  rw [sum_lines] at htotal
  have hmem : ∀ line ∈ q.headers.map headerLine ++ [[]], line ∈ q.lines := by
    intro line hline
    refine List.mem_cons_of_mem _ ?_
    obtain h | h := List.mem_append.mp hline
    · exact List.mem_append_left _ h
    · exact List.mem_append_right _ (List.mem_singleton.mp h ▸ List.mem_cons_self)
  have hmem' : ∀ line ∈ q.body.lines, line ∈ q.lines := fun line hline =>
    List.mem_cons_of_mem _ (List.mem_append_right _ (List.mem_cons_of_mem _ hline))
  have hitems : items (Reader.new ps failure).pieces = lineBytes q.requestLine ++
      ((q.headers.flatMap fun h => lineBytes (headerLine h)) ++ lineBytes [] ++
        (q.body.render ++ rest)) := by
    rw [show items (Reader.new ps failure).pieces = items ps from rfl, hps, Request.render]
    simp only [List.append_assoc]
  obtain ⟨hn, hsize⟩ := hq.lines q.requestLine List.mem_cons_self
  have hzero : (Reader.new ps failure).total = 0 := rfl
  obtain ⟨r₁, hline, hrest₁, htotal₁⟩ := read_line hitems hn hsize (by omega)
  obtain ⟨head, r₂, hheaders, hi, heq, hrest₂, htotal₂⟩ := readHeaders_lines headOk_nil hrest₁
    hq.names (announced_agree hq.body) (fun line hline => hq.lines line (hmem line hline))
    (by omega)
  have hannounced : q.body.Announced head.headers := by
    rw [heq]
    exact hq.body
  obtain ⟨hone, hbody⟩ := readBody_render hi hannounced hrest₂ hq.cap
    (fun line hline => hq.lines line (hmem' line hline)) (by omega)
  unfold readRequest
  simp only [hline, parseRequestLine_render hq, hheaders, hone, hbody, bind, Except.bind]
  rw [heq]
  rfl

/-- a body in two chunks, with a trailer -/
def chunkedRequest : Request where
  method := "POST".toList
  target := "/v1/messages".toList
  version := "HTTP/1.1".toList
  headers := [("Host".toList, " api".toList), ("Transfer-Encoding".toList, " chunked ".toList)]
  body := .chunked [⟨"2;x=1".toList, [123, 34]⟩, ⟨"01".toList, [125]⟩] "0".toList ["a: b".toList]

theorem chunkedRequest_valid : chunkedRequest.Valid (· = "POST".toList) 3 where
  method := ⟨solid_of_all (by decide) (by decide), by decide⟩
  target := ⟨solid_of_all (by decide) (by decide), by decide, by decide⟩
  version := .inl rfl
  names := by decide
  body := ⟨by decide, ⟨"chunked".toList, by decide, by decide⟩, by decide, by decide, by decide⟩
  cap := by decide
  lines := by decide
  total := by decide

theorem readRequest_render_chunked :
    readRequest (· = "POST".toList) 3 (.new (push (chunkedRequest.render.take 30)
      (push (chunkedRequest.render.drop 30) [])) none) =
        .ok ⟨"POST".toList, "/v1/messages".toList, "HTTP/1.1".toList,
          [("host".toList, "api".toList), ("transfer-encoding".toList, "chunked".toList)],
          [123, 34, 125]⟩ := by
  have hitems : items (push (chunkedRequest.render.take 30)
      (push (chunkedRequest.render.drop 30) [])) = chunkedRequest.render ++ [] := by
    rw [items_push, items_push, ← List.append_assoc, List.take_append_drop]
    rfl
  exact readRequest_render chunkedRequest_valid hitems none

end Moagan.Audit.Proxy
