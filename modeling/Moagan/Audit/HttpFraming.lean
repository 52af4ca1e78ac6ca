import Moagan.Audit.HttpRequest

/-!
# What a request is read as (`src/audit/proxy.rs`)

* `Same`                two readers with the same bytes to come, in whatever pieces
* `readRequest_same`    they read the same request, or fail with the same error
* `HeadOk`              what the loop over the headers keeps
* `Framed`              the headers say in one way only where the body ends
* `request_framed`      a request that is accepted is framed, and its body is within the cap
-/

namespace Moagan.Audit.Proxy

open Attempts Pieces
open Redact (fromUtf8 newline)
open Telemetry (words mem_words toAsciiLowercase)

/-! ## the pieces do not matter -/

/-- the same bytes to come, and the same end -/
structure Same (r q : Reader) : Prop where
  items : items r.pieces = items q.pieces
  failure : r.failure = q.failure
  total : r.total = q.total

def Paired {α : Type} (a b : α × Reader) : Prop := a.1 = b.1 ∧ Same a.2 b.2

/-- the same error, or results that are related -/
inductive Alike {α : Type} (R : α → α → Prop) :
    Except RequestReadError α → Except RequestReadError α → Prop
  | error (e : RequestReadError) : Alike R (.error e) (.error e)
  | ok {a b : α} (h : R a b) : Alike R (.ok a) (.ok b)

theorem Alike.map_eq {α β : Type} {R : α → α → Prop} {x y : Except RequestReadError α}
    (h : Alike R x y) {f : α → β} (hf : ∀ a b, R a b → f a = f b) : x.map f = y.map f := by
  cases h with
  | error e => rfl
  | ok h => exact congrArg Except.ok (hf _ _ h)

theorem Alike.bind_eq {α β : Type} {R : α → α → Prop} {x y : Except RequestReadError α}
    (h : Alike R x y) {f g : α → Except RequestReadError β} (hf : ∀ a b, R a b → f a = g b) :
    x >>= f = y >>= g := by
  cases h with
  | error e => rfl
  | ok h => exact hf _ _ h

theorem lineRead_same {r q : Reader} (h : Same r q) (bytes : List UInt8)
    {rest rest' : List (Piece UInt8)} (hrest : items rest = items rest') :
    Alike Paired (lineRead r bytes rest) (lineRead q bytes rest') := by
  unfold lineRead
  rw [h.total]
  by_cases hroom : MAX_HEADER_BYTES < q.total + bytes.length
  · rw [if_pos hroom, if_pos hroom]
    exact .error _
  · rw [if_neg hroom, if_neg hroom]
    cases fromUtf8 bytes with
    | none => exact .error _
    | some line => exact .ok ⟨rfl, hrest, h.failure, rfl⟩

theorem readBoundedLine_same {r q : Reader} (h : Same r q) :
    Alike Paired (readBoundedLine r) (readBoundedLine q) := by
  have hline : (takeLine (· == newline) MAX_LINE_BYTES r.pieces []).map items =
      (takeLine (· == newline) MAX_LINE_BYTES q.pieces []).map items := by
    rw [takeLine_items_nil, takeLine_items_nil, h.items]
  unfold readBoundedLine
  rw [h.failure]
  generalize takeLine (· == newline) MAX_LINE_BYTES r.pieces [] = x at hline
  generalize takeLine (· == newline) MAX_LINE_BYTES q.pieces [] = y at hline
  cases x with
  | tooLong =>
    cases y with
    | tooLong => exact .error _
    | closed line rest => cases hline
    | ended line => cases hline
  | closed line rest =>
    cases y with
    | tooLong => cases hline
    | closed line' rest' =>
      obtain ⟨rfl, hrest⟩ := Line.closed.inj hline
      exact lineRead_same h line hrest
    | ended line' => cases hline
  | ended line =>
    cases y with
    | tooLong => cases hline
    | closed line' rest' => cases hline
    | ended line' =>
      obtain rfl := Line.ended.inj hline
      cases q.failure with
      | some e => exact .error _
      | none => exact lineRead_same h line rfl

theorem readExact_same {r q : Reader} (h : Same r q) (length : ℕ) :
    Alike Paired (readExact length r) (readExact length q) := by
  have hbytes : (takeExact length r.pieces).map (fun p => (p.1, items p.2)) =
      (takeExact length q.pieces).map (fun p => (p.1, items p.2)) := by
    rw [takeExact_items, takeExact_items, h.items]
  unfold readExact
  rw [h.failure]
  generalize takeExact length r.pieces = x at hbytes
  generalize takeExact length q.pieces = y at hbytes
  cases x with
  | none =>
    cases y with
    | none => exact .error _
    | some p => cases hbytes
  | some p =>
    cases y with
    | none => cases hbytes
    | some p' =>
      obtain ⟨h1, h2⟩ := Prod.mk.inj (Option.some.inj hbytes)
      exact .ok ⟨h1, h2, rfl, h.total⟩

theorem readHeader_same {s t : Head × Reader} (h : Paired s t) :
    Next.Rel Paired (Alike Paired) (readHeader s) (readHeader t) := by
  obtain ⟨hhead, hreader⟩ := h
  unfold readHeader
  rw [hhead]
  have hline := readBoundedLine_same hreader
  generalize readBoundedLine s.2 = x at hline ⊢
  generalize readBoundedLine t.2 = y at hline ⊢
  cases hline with
  | error e => exact .done (.error e)
  | @ok a b hab =>
    obtain ⟨line, r⟩ := a
    obtain ⟨line', q⟩ := b
    obtain ⟨rfl, hrq⟩ := hab
    dsimp only
    split
    · exact .done (.ok ⟨rfl, hrq⟩)
    · split
      · exact .done (.error _)
      · cases addHeader t.1 line with
        | error e => exact .done (.error e)
        | ok head => exact .again ⟨rfl, hrq⟩

theorem readTrailer_same {r q : Reader} (h : Same r q) :
    Next.Rel Same (Alike Same) (readTrailer r) (readTrailer q) := by
  unfold readTrailer
  have hline := readBoundedLine_same h
  generalize readBoundedLine r = x at hline ⊢
  generalize readBoundedLine q = y at hline ⊢
  cases hline with
  | error e => exact .done (.error e)
  | @ok a b hab =>
    obtain ⟨line, r'⟩ := a
    obtain ⟨line', q'⟩ := b
    obtain ⟨rfl, hrq⟩ := hab
    dsimp only
    split
    · exact .done (.ok hrq)
    · split
      · exact .done (.error _)
      · exact .again hrq

theorem readChunk_same (cap : ℕ) {s t : List UInt8 × Reader} (h : Paired s t) :
    Next.Rel Paired (Alike Paired) (readChunk cap s) (readChunk cap t) := by
  obtain ⟨hbody, hreader⟩ := h
  unfold readChunk
  rw [hbody]
  have hline := readBoundedLine_same hreader
  generalize readBoundedLine s.2 = x at hline ⊢
  generalize readBoundedLine t.2 = y at hline ⊢
  cases hline with
  | error e => exact .done (.error e)
  | @ok a b hab =>
    obtain ⟨line, r⟩ := a
    obtain ⟨line', q⟩ := b
    obtain ⟨rfl, hrq⟩ := hab
    dsimp only
    split
    · exact .done (.error _)
    · refine .done ?_
      have htrailers : Alike Same (readTrailers r) (readTrailers q) :=
        iterate_sim (fun _ _ h => readTrailer_same h) hrq
      generalize readTrailers r = x at htrailers ⊢
      generalize readTrailers q = y at htrailers ⊢
      cases htrailers with
      | error e => exact .error e
      | ok h => exact .ok ⟨rfl, h⟩
    · rename_i size _ _
      split
      · exact .done (.error _)
      · have hdata := readExact_same hrq size
        generalize readExact size r = x at hdata ⊢
        generalize readExact size q = y at hdata ⊢
        cases hdata with
        | error e => exact .done (.error e)
        | @ok a b hab =>
          obtain ⟨data, r₁⟩ := a
          obtain ⟨data', q₁⟩ := b
          obtain ⟨rfl, h₁⟩ := hab
          dsimp only
          have hcrlf := readExact_same h₁ 2
          generalize readExact 2 r₁ = x at hcrlf ⊢
          generalize readExact 2 q₁ = y at hcrlf ⊢
          cases hcrlf with
          | error e => exact .done (.error e)
          | @ok a b hab =>
            obtain ⟨crlf, r₂⟩ := a
            obtain ⟨crlf', q₂⟩ := b
            obtain ⟨rfl, h₂⟩ := hab
            dsimp only
            split
            · exact .done (.error _)
            · exact .again ⟨rfl, h₂⟩

theorem readBody_same (cap : ℕ) (head : Head) {r q : Reader} (h : Same r q) :
    readBody cap head r = readBody cap head q := by
  have hchunked : readChunkedBody cap r = readChunkedBody cap q := by
    have hsim : Alike Paired (readChunks cap ([], r)) (readChunks cap ([], q)) :=
      iterate_sim (fun _ _ h => readChunk_same cap h) ⟨rfl, h⟩
    exact hsim.map_eq fun _ _ h => h.1
  have hlength : ∀ length, readNBody cap length r = readNBody cap length q := by
    intro length
    unfold readNBody
    rw [(readExact_same h length).map_eq fun _ _ h => h.1]
  unfold readBody
  simp only [hchunked, hlength]

/-- **The pieces in which a request arrives do not matter.** -/
theorem readRequest_same (isMethod : Text → Bool) (cap : ℕ) {r q : Reader} (h : Same r q) :
    readRequest isMethod cap r = readRequest isMethod cap q := by
  refine (readBoundedLine_same h).bind_eq fun a b hab => ?_
  obtain ⟨line, r₁⟩ := a
  obtain ⟨line', q₁⟩ := b
  obtain ⟨rfl, h₁⟩ := hab
  dsimp only
  congr 1
  funext start
  have hheaders : Alike Paired (readHeaders (⟨[], none, none⟩, r₁))
      (readHeaders (⟨[], none, none⟩, q₁)) :=
    iterate_sim (fun _ _ h => readHeader_same h) ⟨rfl, h₁⟩
  refine hheaders.bind_eq fun a b hab => ?_
  obtain ⟨head, r₂⟩ := a
  obtain ⟨head', q₂⟩ := b
  obtain ⟨rfl, h₂⟩ := hab
  dsimp only
  rw [readBody_same cap head h₂]

/-! ## the headers that were read -/

/-- the values of the headers of a name -/
def valuesOf (name : String) (headers : List (Text × Text)) : List Text :=
  (headers.filter (·.1 = name.toList)).map Prod.snd

theorem valuesOf_concat (name : String) (headers : List (Text × Text)) (h : Text × Text) :
    valuesOf name (headers ++ [h]) =
      valuesOf name headers ++ if h.1 = name.toList then [h.2] else [] := by
  unfold valuesOf
  rw [List.filter_append, List.map_append]
  by_cases hname : h.1 = name.toList
  · rw [if_pos hname, List.filter_cons_of_pos (by exact decide_eq_true hname)]
    rfl
  · rw [if_neg hname, List.filter_cons_of_neg (by simpa using hname)]
    rfl

/-- what the loop over the headers keeps -/
structure HeadOk (head : Head) : Prop where
  names : ∀ h ∈ head.headers, h.1 ≠ [] ∧ ∃ name, h.1 = toAsciiLowercase name
  length : ∀ value ∈ valuesOf "content-length" head.headers, ∃ n,
    head.contentLength = some n ∧ Governor.parseUnsigned usizeMax value = .ok n
  noLength : head.contentLength = none ↔ valuesOf "content-length" head.headers = []
  encoding : head.transferEncoding =
    (valuesOf "transfer-encoding" head.headers).getLast?.map toAsciiLowercase

theorem headOk_nil : HeadOk ⟨[], none, none⟩ where
  names := fun _ h => absurd h List.not_mem_nil
  length := fun _ h => absurd h List.not_mem_nil
  noLength := ⟨fun _ => rfl, fun _ => rfl⟩
  encoding := rfl

theorem setLength_ok {prior length : Option ℕ} {value : Text}
    (h : setLength prior value = .ok length) :
    ∃ n, Governor.parseUnsigned usizeMax value = .ok n ∧ length = some n ∧
      ∀ m, prior = some m → m = n := by
  unfold setLength at h
  cases hparsed : Governor.parseUnsigned usizeMax value with
  | error e =>
    rw [hparsed] at h
    cases h
  | ok n =>
    rw [hparsed] at h
    dsimp only at h
    split at h
    · cases h
    · rename_i hsame
      obtain rfl := Except.ok.inj h
      refine ⟨n, rfl, rfl, fun m hm => ?_⟩
      subst hm
      simpa using hsame

/-- a line that is a header -/
theorem addHeader_ok {head head' : Head} {line : Text} (h : addHeader head line = .ok head') :
    ∃ rawName rawValue length, splitColon (trimEol line) = some (rawName, rawValue) ∧
      toAsciiLowercase (trim rawName) ≠ [] ∧
      (if toAsciiLowercase (trim rawName) = "content-length".toList then
        setLength head.contentLength (trim rawValue) = .ok length
      else length = head.contentLength) ∧
      head' =
        { headers := head.headers ++ [(toAsciiLowercase (trim rawName), trim rawValue)]
          contentLength := length
          transferEncoding :=
            if toAsciiLowercase (trim rawName) = "transfer-encoding".toList then
              some (toAsciiLowercase (trim rawValue))
            else head.transferEncoding } := by
  unfold addHeader at h
  cases hsplit : splitColon (trimEol line) with
  | none =>
    rw [hsplit] at h
    cases h
  | some p =>
    obtain ⟨rawName, rawValue⟩ := p
    rw [hsplit] at h
    dsimp only at h
    by_cases hname : toAsciiLowercase (trim rawName) = []
    · rw [if_pos hname] at h
      cases h
    · rw [if_neg hname] at h
      by_cases hlength : toAsciiLowercase (trim rawName) = "content-length".toList
      · simp only [if_pos hlength] at h ⊢
        cases hset : setLength head.contentLength (trim rawValue) with
        | error e =>
          rw [hset] at h
          cases h
        | ok length =>
          rw [hset] at h
          exact ⟨rawName, rawValue, length, rfl, hname, by rw [if_pos hlength]; exact hset,
            (Except.ok.inj h).symm⟩
      · rw [if_neg hlength] at h
        exact ⟨rawName, rawValue, head.contentLength, rfl, hname, by rw [if_neg hlength],
          (Except.ok.inj h).symm⟩

theorem addHeader_headOk {head head' : Head} {line : Text} (hi : HeadOk head)
    (h : addHeader head line = .ok head') : HeadOk head' := by
  obtain ⟨rawName, rawValue, length, -, hname, hlength, rfl⟩ := addHeader_ok h
  generalize hn : toAsciiLowercase (trim rawName) = name at hname hlength
  generalize trim rawValue = value at hlength
  refine ⟨?_, ?_, ?_, ?_⟩
  · intro h hh
    obtain hh | hh := List.mem_append.mp hh
    · exact hi.names h hh
    · obtain rfl := List.mem_singleton.mp hh
      exact ⟨hname, _, hn.symm⟩
  · show ∀ v ∈ valuesOf "content-length" (head.headers ++ [(name, value)]), ∃ n,
      length = some n ∧ _
    rw [valuesOf_concat]
    by_cases hc : name = "content-length".toList
    · rw [if_pos hc] at hlength ⊢
      obtain ⟨n, hparsed, rfl, hprior⟩ := setLength_ok hlength
      intro v hv
      obtain hv | hv := List.mem_append.mp hv
      · obtain ⟨m, hm, hmv⟩ := hi.length v hv
        exact ⟨n, rfl, hprior m hm ▸ hmv⟩
      · obtain rfl := List.mem_singleton.mp hv
        exact ⟨n, rfl, hparsed⟩
    · rw [if_neg hc] at hlength ⊢
      rw [List.append_nil, hlength]
      exact hi.length
  · show length = none ↔ valuesOf "content-length" (head.headers ++ [(name, value)]) = []
    rw [valuesOf_concat]
    by_cases hc : name = "content-length".toList
    · rw [if_pos hc] at hlength ⊢
      obtain ⟨n, -, rfl, -⟩ := setLength_ok hlength
      simp
    · rw [if_neg hc] at hlength ⊢
      rw [List.append_nil, hlength]
      exact hi.noLength
  · show (if name = "transfer-encoding".toList then some (toAsciiLowercase value)
      else head.transferEncoding) =
        (valuesOf "transfer-encoding" (head.headers ++ [(name, value)])).getLast?.map
          toAsciiLowercase
    rw [valuesOf_concat]
    by_cases hc : name = "transfer-encoding".toList
    · rw [if_pos hc, if_pos hc, List.getLast?_concat]
      rfl
    · rw [if_neg hc, if_neg hc, List.append_nil]
      exact hi.encoding

/-! ## where the bytes of the body come from -/

theorem readBoundedLine_suffix {reader reader' : Reader} {line : Text}
    (h : readBoundedLine reader = .ok (line, reader')) :
    items reader'.pieces <:+ items reader.pieces := by
  unfold readBoundedLine at h
  cases hline : takeLine (· == newline) MAX_LINE_BYTES reader.pieces [] with
  | tooLong =>
    rw [hline] at h
    cases h
  | closed bytes rest =>
    rw [hline] at h
    obtain ⟨-, -, rfl⟩ := lineRead_ok h
    exact ⟨bytes, (takeLine_append hline).symm⟩
  | ended bytes =>
    rw [hline] at h
    dsimp only at h
    split at h
    · cases h
    · obtain ⟨-, -, rfl⟩ := lineRead_ok h
      exact List.nil_suffix

theorem readExact_ok {reader reader' : Reader} {length : ℕ} {bytes : List UInt8}
    (h : readExact length reader = .ok (bytes, reader')) :
    items reader.pieces = bytes ++ items reader'.pieces ∧ bytes.length = length := by
  unfold readExact at h
  cases hbytes : takeExact length reader.pieces with
  | none =>
    rw [hbytes] at h
    cases h
  | some p =>
    rw [hbytes] at h
    obtain ⟨rfl, rfl⟩ := Prod.mk.inj (Except.ok.inj h)
    exact takeExact_some hbytes

/-- the last chunk adds nothing -/
theorem readChunk_done {cap : ℕ} {s s' : List UInt8 × Reader}
    (h : readChunk cap s = .done (.ok s')) : s'.1 = s.1 := by
  unfold readChunk at h
  split at h
  · cases h
  · split at h
    · cases h
    · rename_i reader _ _ _
      cases htrailers : readTrailers reader with
      | error e =>
        rw [htrailers] at h
        cases h
      | ok reader' =>
        rw [htrailers] at h
        obtain rfl := Except.ok.inj (Next.done.inj h)
        rfl
    · split at h
      · cases h
      · split at h
        · cases h
        · split at h
          · cases h
          · split at h
            · cases h
            · cases h

/-- the chunks so far hold no more than the cap, and what they hold has come in this order -/
def ChunksOk (cap : ℕ) (reader : Reader) (s : List UInt8 × Reader) : Prop :=
  s.1.length ≤ cap ∧
    ∃ front, items reader.pieces = front ++ items s.2.pieces ∧ s.1.Sublist front

theorem readChunk_chunksOk {cap : ℕ} {reader : Reader} {s s' : List UInt8 × Reader}
    (hs : ChunksOk cap reader s) (h : readChunk cap s = .again s') : ChunksOk cap reader s' := by
  obtain ⟨hcap, front, hfront, hsub⟩ := hs
  obtain ⟨line, size, data, r₁, r₂, hline, -, -, hsize, hdata, hcrlf, hbody⟩ := readChunk_again h
  obtain ⟨lineBytes, hlineBytes⟩ := readBoundedLine_suffix hline
  obtain ⟨hdataBytes, hlength⟩ := readExact_ok hdata
  obtain ⟨hcrlfBytes, -⟩ := readExact_ok hcrlf
  refine ⟨?_, front ++ lineBytes ++ data ++ [13, 10], ?_, ?_⟩
  · rw [hbody, List.length_append, hlength]
    exact hsize
  · rw [hfront, ← hlineBytes, hdataBytes, hcrlfBytes]
    simp only [List.append_assoc]
  · rw [hbody]
    refine (List.Sublist.append ?_ (List.Sublist.refl data)).trans (List.sublist_append_left _ _)
    exact hsub.trans (List.sublist_append_left _ _)

theorem readChunkedBody_ok {cap : ℕ} {reader : Reader} {body : List UInt8}
    (h : readChunkedBody cap reader = .ok body) :
    body.length ≤ cap ∧ body.Sublist (items reader.pieces) := by
  have hstart : ChunksOk cap reader ([], reader) := ⟨Nat.zero_le _, [], rfl, List.Sublist.refl _⟩
  have hloop : ∀ s, readChunks cap ([], reader) = .ok s →
      s.1.length ≤ cap ∧ s.1.Sublist (items reader.pieces) := by
    refine iterate_spec (I := ChunksOk cap reader)
      (Q := fun x => ∀ s, x = .ok s → s.1.length ≤ cap ∧ s.1.Sublist (items reader.pieces))
      ?_ (fun _ _ => readChunk_chunksOk) hstart
    intro s x ⟨hcap, front, hfront, hsub⟩ hdone s' hx
    subst hx
    rw [readChunk_done hdone, hfront]
    exact ⟨hcap, hsub.trans (List.sublist_append_left _ _)⟩
  unfold readChunkedBody at h
  cases hchunks : readChunks cap ([], reader) with
  | error e =>
    rw [hchunks] at h
    cases h
  | ok s =>
    rw [hchunks] at h
    obtain rfl := Except.ok.inj h
    exact hloop s hchunks

theorem readNBody_ok {cap length : ℕ} {reader : Reader} {body : List UInt8}
    (h : readNBody cap length reader = .ok body) :
    body.length = length ∧ length ≤ cap ∧ body.Sublist (items reader.pieces) := by
  unfold readNBody at h
  by_cases hcap : cap < length
  · rw [if_pos hcap] at h
    cases h
  · rw [if_neg hcap] at h
    cases hbytes : readExact length reader with
    | error e =>
      rw [hbytes] at h
      cases h
    | ok p =>
      rw [hbytes] at h
      obtain rfl := Except.ok.inj h
      obtain ⟨hitems, hlength⟩ := readExact_ok hbytes
      refine ⟨hlength, Nat.le_of_not_lt hcap, ?_⟩
      rw [hitems]
      exact List.sublist_append_left _ _

/-! ## a request that is accepted -/

/-- the loop over the headers ends at the empty line -/
theorem readHeader_done {s s' : Head × Reader} (h : readHeader s = .done (.ok s')) :
    s'.1 = s.1 ∧ items s'.2.pieces <:+ items s.2.pieces := by
  unfold readHeader at h
  split at h
  · cases h
  · rename_i line reader hline
    split at h
    · obtain rfl := Except.ok.inj (Next.done.inj h)
      exact ⟨rfl, readBoundedLine_suffix hline⟩
    · split at h
      · cases h
      · split at h
        · cases h
        · cases h

theorem readHeader_again {s s' : Head × Reader} (h : readHeader s = .again s') :
    ∃ line, addHeader s.1 line = .ok s'.1 ∧ items s'.2.pieces <:+ items s.2.pieces := by
  unfold readHeader at h
  split at h
  · cases h
  · rename_i line reader hline
    split at h
    · cases h
    · split at h
      · cases h
      · split at h
        · cases h
        · rename_i head hhead
          obtain rfl := Next.again.inj h
          exact ⟨line, hhead, readBoundedLine_suffix hline⟩

theorem readHeaders_ok {reader : Reader} {s : Head × Reader}
    (h : readHeaders (⟨[], none, none⟩, reader) = .ok s) :
    HeadOk s.1 ∧ items s.2.pieces <:+ items reader.pieces := by
  have hstart : HeadOk (⟨[], none, none⟩ : Head) ∧ items reader.pieces <:+ items reader.pieces :=
    ⟨headOk_nil, List.suffix_refl _⟩
  have hloop : ∀ s, readHeaders (⟨[], none, none⟩, reader) = .ok s →
      HeadOk s.1 ∧ items s.2.pieces <:+ items reader.pieces := by
    refine iterate_spec
      (I := fun s : Head × Reader => HeadOk s.1 ∧ items s.2.pieces <:+ items reader.pieces)
      (Q := fun x : Except RequestReadError (Head × Reader) => ∀ s, x = .ok s →
        HeadOk s.1 ∧ items s.2.pieces <:+ items reader.pieces)
      ?_ ?_ hstart
    · intro s x ⟨hhead, hsuffix⟩ hdone s' hx
      subst hx
      obtain ⟨heq, hsuffix'⟩ := readHeader_done hdone
      exact ⟨heq ▸ hhead, hsuffix'.trans hsuffix⟩
    · intro s s' ⟨hhead, hsuffix⟩ hagain
      obtain ⟨line, hline, hsuffix'⟩ := readHeader_again hagain
      exact ⟨addHeader_headOk hhead hline, hsuffix'.trans hsuffix⟩
  exact hloop s h

theorem parseRequestLine_ok {isMethod : Text → Bool} {line method target version : Text}
    (h : parseRequestLine isMethod line = .ok (method, target, version)) :
    words (trimEol line) = [method, target, version] ∧ isMethod method = true ∧
      "/".toList <+: target ∧ ¬ "//".toList <+: target ∧
      (version = "HTTP/1.1".toList ∨ version = "HTTP/1.0".toList) := by
  unfold parseRequestLine at h
  split at h
  · rename_i method' target' version' hwords
    split at h
    · cases h
    · rename_i hmethod
      split at h
      · cases h
      · rename_i htarget
        split at h
        · cases h
        · rename_i hversion
          obtain ⟨rfl, h'⟩ := Prod.mk.inj (Except.ok.inj h)
          obtain ⟨rfl, rfl⟩ := Prod.mk.inj h'
          rw [Bool.not_eq_true, Bool.or_eq_false_iff, Bool.not_eq_false'] at htarget
          refine ⟨hwords, by simpa using hmethod, List.isPrefixOf_iff_prefix.mp htarget.1, ?_, ?_⟩
          · intro hprefix
            rw [List.isPrefixOf_iff_prefix.mpr hprefix] at htarget
            cases htarget.2
          · by_cases hv : version' = "HTTP/1.1".toList
            · exact .inl hv
            · exact .inr (not_not.mp fun hv' => hversion ⟨hv, hv'⟩)
  · cases h

/-- The headers say where the body ends: the last encoding is chunks and no length is given, or no
encoding is given and every length is that of the body, or neither is given and there is no body. -/
inductive Framed (headers : List (Text × Text)) (body : List UInt8) : Prop
  | chunked {value : Text} (hlength : valuesOf "content-length" headers = [])
      (hlast : (valuesOf "transfer-encoding" headers).getLast? = some value)
      (hvalue : toAsciiLowercase value = "chunked".toList)
  | length (hencoding : valuesOf "transfer-encoding" headers = [])
      (hsome : valuesOf "content-length" headers ≠ [])
      (hvalues : ∀ value ∈ valuesOf "content-length" headers,
        Governor.parseUnsigned usizeMax value = .ok body.length)
  | empty (hencoding : valuesOf "transfer-encoding" headers = [])
      (hlength : valuesOf "content-length" headers = []) (hbody : body = [])

theorem readBody_ok {cap : ℕ} {head : Head} {reader : Reader} {body : List UInt8}
    (hi : HeadOk head) (hone : (head.contentLength.isSome && head.transferEncoding.isSome) = false)
    (h : readBody cap head reader = .ok body) :
    Framed head.headers body ∧ body.length ≤ cap ∧ body.Sublist (items reader.pieces) := by
  have hencoding := hi.encoding
  unfold readBody at h
  cases ht : head.transferEncoding with
  | some encoding =>
    rw [ht] at h hone hencoding
    have hlength : head.contentLength = none := by simpa using hone
    by_cases hchunked : encoding = "chunked".toList
    · simp only [if_pos hchunked] at h
      obtain ⟨value, hlast, hvalue⟩ := Option.map_eq_some_iff.mp hencoding.symm
      obtain ⟨hcap, hsub⟩ := readChunkedBody_ok h
      exact ⟨.chunked (hi.noLength.mp hlength) hlast (hvalue.trans hchunked), hcap, hsub⟩
    · simp only [if_neg hchunked] at h
      cases h
  | none =>
    rw [ht] at h hencoding
    have hnone : valuesOf "transfer-encoding" head.headers = [] :=
      List.getLast?_eq_none_iff.mp (Option.map_eq_none_iff.mp hencoding.symm)
    cases hl : head.contentLength with
    | none =>
      rw [hl] at h
      obtain rfl := Except.ok.inj h
      exact ⟨.empty hnone (hi.noLength.mp hl) rfl, Nat.zero_le _, List.nil_sublist _⟩
    | some n =>
      rw [hl] at h
      obtain ⟨hlength, hcap, hsub⟩ := readNBody_ok h
      refine ⟨.length hnone (fun hnil => ?_) (fun value hvalue => ?_), hlength ▸ hcap, hsub⟩
      · rw [hi.noLength.mpr hnil] at hl
        cases hl
      · obtain ⟨m, hm, hparsed⟩ := hi.length value hvalue
        rw [hl] at hm
        rw [hparsed, hlength, Option.some.inj hm]

/-- what is known of a request that was read -/
structure Accepted (isMethod : Text → Bool) (cap : ℕ) (reader : Reader) (r : ParsedRequest) :
    Prop where
  method : Telemetry.Solid r.method ∧ isMethod r.method = true
  target : Telemetry.Solid r.target ∧ "/".toList <+: r.target ∧ ¬ "//".toList <+: r.target
  version : r.version = "HTTP/1.1".toList ∨ r.version = "HTTP/1.0".toList
  names : ∀ h ∈ r.headers, h.1 ≠ [] ∧ ∃ name, h.1 = toAsciiLowercase name
  framed : Framed r.headers r.body
  cap : r.body.length ≤ cap
  bytes : r.body.Sublist (items reader.pieces)

theorem readRequest_accepted {isMethod : Text → Bool} {cap : ℕ} {reader : Reader}
    {r : ParsedRequest} (h : readRequest isMethod cap reader = .ok r) :
    Accepted isMethod cap reader r := by
  unfold readRequest at h
  cases hline : readBoundedLine reader with
  | error e =>
    rw [hline] at h
    cases h
  | ok p =>
    obtain ⟨line, r₁⟩ := p
    rw [hline] at h
    cases hstart : parseRequestLine isMethod line with
    | error e =>
      simp only [hstart, bind, Except.bind] at h
      cases h
    | ok p =>
      obtain ⟨method, target, version⟩ := p
      cases hheaders : readHeaders (⟨[], none, none⟩, r₁) with
      | error e =>
        simp only [hstart, hheaders, bind, Except.bind] at h
        cases h
      | ok s =>
        obtain ⟨head, r₂⟩ := s
        simp only [hstart, hheaders, bind, Except.bind] at h
        split at h
        · cases h
        · rename_i hone
          cases hbody : readBody cap head r₂ with
          | error e =>
            rw [hbody] at h
            cases h
          | ok body =>
            rw [hbody] at h
            obtain rfl := Except.ok.inj h
            obtain ⟨hwords, hmethod, htarget, htarget', hversion⟩ := parseRequestLine_ok hstart
            obtain ⟨hhead, hsuffix⟩ := readHeaders_ok hheaders
            obtain ⟨hframed, hcap, hsub⟩ := readBody_ok hhead (by simpa using hone) hbody
            have hsolid : ∀ w ∈ [method, target, version], Telemetry.Solid w :=
              fun w hw => (mem_words (hwords ▸ hw)).1
            exact
              { method := ⟨hsolid method List.mem_cons_self, hmethod⟩
                target := ⟨hsolid target (List.mem_cons_of_mem _ List.mem_cons_self), htarget,
                  htarget'⟩
                version := hversion
                names := hhead.names
                framed := hframed
                cap := hcap
                bytes := hsub.trans (hsuffix.trans (readBoundedLine_suffix hline)).sublist }

/-- **What is read of a connection does not depend on the pieces in which it arrives, and a request
that is accepted has a body within the cap, of bytes that have come in this order, and headers that
say in one way only where it ends.** -/
theorem request_framed (isMethod : Text → Bool) (cap : ℕ) (reader : Reader) :
    (∀ q, Same reader q → readRequest isMethod cap reader = readRequest isMethod cap q) ∧
      ∀ r, readRequest isMethod cap reader = .ok r → Accepted isMethod cap reader r :=
  ⟨fun _ h => readRequest_same isMethod cap h, fun _ h => readRequest_accepted h⟩

end Moagan.Audit.Proxy
