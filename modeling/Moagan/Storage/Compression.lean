import Moagan.Lib.Runs
import Moagan.Llm.Cache
import Moagan.Redact.Writer

/-!
# Compressed logs (`src/storage/compression.rs`)

* `Gzip`                 the codec: a member for the buffers of an encoder, and the decoder
* `step`                 an append handle, its members, and what a crash leaves of the open one
* `readToString`         the reader; an error of the decoder discards what was decoded before
* `log_recovered`        the log is read when every crash leaves the open member whole or not at all
* `torn_member_hides`    else the reader can fail for the whole file
-/

namespace Moagan.Compression
open Redact

inductive IoError where
  /-- `UnexpectedEof`, or a header or checksum that is wrong -/
  | decoder
  /-- `InvalidData`: not UTF-8 -/
  | invalidUtf8
deriving DecidableEq, Repr

/-- `GzEncoder` from its creation to `finish`, and `MultiGzDecoder`: what it decodes, and whether it
stops with an error -/
structure Gzip where
  encode : List (List UInt8) → List UInt8
  decode : List UInt8 → List UInt8 × Option IoError

/-- members are not empty, and a file of whole members is decoded -/
structure Gzip.Correct (gz : Gzip) : Prop where
  nonempty : ∀ buffers, gz.encode buffers ≠ []
  members : ∀ ms : List (List (List UInt8)), ms ≠ [] →
    gz.decode (ms.map gz.encode).flatten = ((ms.map List.flatten).flatten, none)

def isGzPath (path : String) : Bool := Cache.extension path = some "gz".toList

def readToString (gz : Gzip) (path : String) (file : List UInt8) : Except IoError (List Char) :=
  if file.length = 0 then .ok []
  else if isGzPath path then
    match gz.decode file with
    | (_, some e) => .error e
    | (bytes, none) =>
      match fromUtf8 bytes with
      | some text => .ok text
      | none => .error .invalidUtf8
  else
    match fromUtf8 file with
    | some text => .ok text
    | none => .error .invalidUtf8

/-! ## the writer -/

/-- what went into a member -/
inductive Entry where
  | ended (text : List Char)
  /-- the process died before the end of the member -/
  | torn (text : List Char)
deriving DecidableEq, Repr

/-- `writer` is the append handle, if one is open: the buffers of its encoder, if it has one; `log`
is what the members of the file are about -/
structure Sys where
  file : List UInt8
  writer : Option (Option (List (List Char)))
  log : List Entry
deriving DecidableEq, Repr

def init : Sys := ⟨[], none, []⟩

inductive Event where
  /-- `open_gz_append` -/
  | append
  /-- a call of `write` that takes `buf` -/
  | write (buf : List Char)
  | flush
  | drop
  /-- `left` is what the file has of the member -/
  | crash (left : List UInt8)
deriving DecidableEq, Repr

variable (gz : Gzip)

/-- `finish` on the encoder -/
def finish (buffers : List (List Char)) : List UInt8 := gz.encode (buffers.map utf8)

def endMember (s : Sys) : Option (List (List Char)) → Sys
  | none => s
  | some buffers => { s with
      file := s.file ++ finish gz buffers, log := s.log ++ [.ended buffers.flatten] }

/-- a reader that looks while a member is open sees what a crash at that time would leave -/
def step (s : Sys) : Event → Option Sys
  | .append =>
    match s.writer with
    | none => some { s with writer := some none }
    | some _ => none
  | .write buf => s.writer.map fun current =>
      { s with writer := some (some (current.getD [] ++ [buf])) }
  | .flush => s.writer.map fun current => { endMember gz s current with writer := some none }
  | .drop => s.writer.map fun current => { endMember gz s current with writer := none }
  | .crash left =>
    match s.writer with
    | none => none
    | some none => if left = [] then some { s with writer := none } else none
    | some (some buffers) =>
      if left <+: finish gz buffers then
        some { file := s.file ++ left, writer := none, log := s.log ++ [.torn buffers.flatten] }
      else none

/-! ## what a reader should see -/

/-- the text of every ended member, and as much as there is of the torn ones -/
inductive Covers : List Entry → List Char → Prop where
  | nil : Covers [] []
  | ended {log : List Entry} {text t : List Char} (h : Covers log text) :
      Covers (log ++ [.ended t]) (text ++ t)
  | torn {log : List Entry} {text t left : List Char} (h : Covers log text) (hleft : left <+: t) :
      Covers (log ++ [.torn t]) (text ++ left)

def Recovered (path : String) (s : Sys) : Prop :=
  ∃ text, readToString gz path s.file = .ok text ∧ Covers s.log text

/-- a crash leaves nothing of the open member, or all of it -/
def CleanCrash (s : Sys) : Event → Prop
  | .crash left => ∀ buffers, s.writer = some (some buffers) → left = [] ∨ left = finish gz buffers
  | _ => True

/-- the file consists of whole members -/
def Whole (s : Sys) : Prop :=
  ∃ ms : List (List (List Char)), s.file = (ms.map (finish gz)).flatten ∧
    Covers s.log (ms.map List.flatten).flatten

variable {gz}

theorem whole_snoc {s : Sys} (h : Whole gz s) (buffers : List (List Char)) {e : Entry}
    (he : e = .ended buffers.flatten ∨ e = .torn buffers.flatten) (writer) :
    Whole gz { file := s.file ++ finish gz buffers, writer, log := s.log ++ [e] } := by
  obtain ⟨ms, hfile, hlog⟩ := h
  refine ⟨ms ++ [buffers], ?_, ?_⟩
  · show s.file ++ finish gz buffers = _
    rw [hfile, List.map_append, List.flatten_append, List.map_singleton, List.flatten_singleton]
  · rw [List.map_append, List.flatten_append, List.map_singleton, List.flatten_singleton]
    obtain rfl | rfl := he
    · exact hlog.ended
    · exact hlog.torn List.prefix_rfl

theorem whole_endMember {s : Sys} (h : Whole gz s) (current : Option (List (List Char))) (writer) :
    Whole gz { endMember gz s current with writer } := by
  cases current with
  | none => exact h
  | some buffers => exact whole_snoc h buffers (Or.inl rfl) writer

theorem step_whole {s s' : Sys} {e : Event} (h : Whole gz s) (hclean : CleanCrash gz s e)
    (hs : step gz s e = some s') : Whole gz s' := by
  cases e with
  | append =>
    cases hw : s.writer with
    | none =>
      rw [step, hw] at hs
      obtain rfl := Option.some.inj hs
      exact h
    | some current =>
      rw [step, hw] at hs
      cases hs
  | write buf =>
    obtain ⟨current, -, rfl⟩ := Option.map_eq_some_iff.mp hs
    exact h
  | flush =>
    obtain ⟨current, -, rfl⟩ := Option.map_eq_some_iff.mp hs
    exact whole_endMember h current _
  | drop =>
    obtain ⟨current, -, rfl⟩ := Option.map_eq_some_iff.mp hs
    exact whole_endMember h current _
  | crash left =>
    rw [step] at hs
    cases hw : s.writer with
    | none =>
      rw [hw] at hs
      cases hs
    | some current =>
      rw [hw] at hs
      cases current with
      | none =>
        obtain ⟨-, hs⟩ := Option.ite_none_right_eq_some.mp hs
        obtain rfl := Option.some.inj hs
        exact h
      | some buffers =>
        obtain ⟨-, hs⟩ := Option.ite_none_right_eq_some.mp hs
        obtain rfl := Option.some.inj hs
        obtain rfl | rfl := hclean buffers hw
        · obtain ⟨ms, hfile, hlog⟩ := h
          refine ⟨ms, (List.append_nil _).trans hfile, ?_⟩
          rw [← List.append_nil (ms.map List.flatten).flatten]
          exact hlog.torn List.nil_prefix
        · exact whole_snoc h buffers (Or.inr rfl) none

theorem finish_flatten (ms : List (List (List Char))) :
    ((ms.map fun buffers => buffers.map utf8).map List.flatten).flatten
      = utf8 (ms.map List.flatten).flatten := by
  rw [utf8_flatten, List.map_map, List.map_map]
  congr 1
  refine List.map_congr_left fun buffers _ => ?_
  exact (utf8_flatten buffers).symm

/-- a file of whole members is read -/
theorem recovered_of_whole (hgz : gz.Correct) {path : String} (hpath : isGzPath path = true)
    {s : Sys} (h : Whole gz s) : Recovered gz path s := by
  obtain ⟨ms, hfile, hlog⟩ := h
  refine ⟨_, ?_, hlog⟩
  cases ms with
  | nil =>
    rw [hfile]
    rfl
  | cons m ms =>
    have hmembers : s.file = (((m :: ms).map fun buffers => buffers.map utf8).map gz.encode).flatten := by
      rw [hfile, List.map_map]
      rfl
    have hne : s.file.length ≠ 0 := by
      rw [hmembers]
      intro hlen
      have := List.eq_nil_of_length_eq_zero hlen
      exact hgz.nonempty _ (List.append_eq_nil_iff.mp this).1
    rw [readToString, if_neg hne, if_pos hpath, hmembers,
      hgz.members ((m :: ms).map fun buffers => buffers.map utf8) (List.cons_ne_nil _ _),
      finish_flatten]
    dsimp only
    rw [fromUtf8_utf8]

/-- **A log without half members is read**, whatever was written, ended and reopened. -/
theorem log_recovered (hgz : gz.Correct) {path : String} (hpath : isGzPath path = true)
    {events : List Event} {s : Sys} (hrun : Runs.run (step gz) init events = some s)
    (hclean : Runs.Along (step gz) (CleanCrash gz) init events) : Recovered gz path s :=
  recovered_of_whole hgz hpath (Runs.run_inv (fun _ _ _ hi hg hs => step_whole hi hg hs) events
    init s ⟨[], rfl, Covers.nil⟩ hclean hrun)

/-- `UnexpectedEof` behind the front of a member -/
def Gzip.StopsAtTorn (gz : Gzip) : Prop :=
  ∀ (ms : List (List (List UInt8))) (m : List (List UInt8)) (left : List UInt8),
    left <+: gz.encode m → left ≠ [] → left ≠ gz.encode m →
    (gz.decode ((ms.map gz.encode).flatten ++ left)).2 ≠ none

/-- **Behind a crash that leaves half a member nothing is read.** -/
theorem torn_fails (hstop : gz.StopsAtTorn) {path : String} (hpath : isGzPath path = true)
    {s s' : Sys} {left : List UInt8} (h : Whole gz s) (hs : step gz s (.crash left) = some s')
    (htorn : ¬ CleanCrash gz s (.crash left)) : ¬ Recovered gz path s' := by
  obtain ⟨buffers, hw, hne⟩ : ∃ buffers, s.writer = some (some buffers) ∧
      ¬ (left = [] ∨ left = finish gz buffers) := by simpa [CleanCrash] using htorn
  rw [step, hw] at hs
  obtain ⟨hfront, hs⟩ := Option.ite_none_right_eq_some.mp hs
  obtain rfl := Option.some.inj hs
  obtain ⟨hnil, hfull⟩ := not_or.mp hne
  obtain ⟨ms, hfile, -⟩ := h
  have hstopped := hstop (ms.map fun buffers => buffers.map utf8) (buffers.map utf8) left hfront hnil
    hfull
  rw [List.map_map] at hstopped
  intro hread
  obtain ⟨text, hread, -⟩ := hread
  have hlen : (s.file ++ left).length ≠ 0 := fun hlen =>
    hnil (List.append_eq_nil_iff.mp (List.eq_nil_of_length_eq_zero hlen)).2
  rw [readToString, if_neg hlen, if_pos hpath, hfile] at hread
  cases hd : gz.decode ((ms.map (finish gz)).flatten ++ left) with
  | mk bytes stop =>
    cases stop with
    | none => exact hstopped (congrArg Prod.snd hd)
    | some e =>
      rw [hd] at hread
      cases hread

/-! ## a codec with the framing of gzip -/

/-- the magic bytes, a block for every byte, and an end mark -/
def frame (buffers : List (List UInt8)) : List UInt8 :=
  31 :: 139 :: (buffers.flatten.flatMap fun b => [1, b]) ++ [0]

/-- the blocks of a member up to its end mark, and what is behind it -/
def unblock : List UInt8 → Option (List UInt8 × List UInt8)
  | [] => none
  | [c] => if c = 0 then some ([], []) else none
  | c :: b :: rest =>
    if c = 0 then some ([], b :: rest)
    else if c = 1 then (unblock rest).map fun p => (b :: p.1, p.2) else none

/-- at most `n` members -/
def unframe : ℕ → List UInt8 → List UInt8 × Option IoError
  | _, [] => ([], none)
  | n + 1, 31 :: 139 :: rest =>
    match unblock rest with
    | none => ([], some .decoder)
    | some (bytes, rest) => ((bytes ++ (unframe n rest).1), (unframe n rest).2)
  | _, _ => ([], some .decoder)

def framed : Gzip where
  encode := frame
  decode file := unframe file.length file

theorem unblock_end (rest : List UInt8) : unblock (0 :: rest) = some ([], rest) := by
  cases rest with
  | nil => rfl
  | cons b rest => rfl

theorem unblock_blocks (bytes rest : List UInt8) :
    unblock ((bytes.flatMap fun b => [1, b]) ++ 0 :: rest) = some (bytes, rest) := by
  induction bytes with
  | nil => exact unblock_end rest
  | cons b bytes ih =>
    show unblock (1 :: b :: ((bytes.flatMap fun b => [1, b]) ++ 0 :: rest)) = _
    rw [unblock, ih]
    rfl

theorem unframe_members (ms : List (List (List UInt8))) {n : ℕ} (hn : ms.length ≤ n) :
    unframe n (ms.map frame).flatten = ((ms.map List.flatten).flatten, none) := by
  induction ms generalizing n with
  | nil => cases n <;> rfl
  | cons m ms ih =>
    cases n with
    | zero => cases hn
    | succ n =>
      have hblocks : ((m :: ms).map frame).flatten = 31 :: 139 ::
          ((m.flatten.flatMap fun b => [1, b]) ++ 0 :: (ms.map frame).flatten) := by
        rw [List.map_cons, List.flatten_cons, frame]
        simp
      rw [hblocks, unframe, unblock_blocks]
      dsimp only
      rw [ih (Nat.le_of_succ_le_succ hn)]
      rfl

theorem unblock_torn (bytes : List UInt8) {left : List UInt8}
    (hfront : left <+: (bytes.flatMap fun b => [1, b]) ++ [0])
    (hne : left ≠ (bytes.flatMap fun b => [1, b]) ++ [0]) : unblock left = none := by
  induction bytes generalizing left with
  | nil =>
    cases left with
    | nil => rfl
    | cons c left =>
      obtain ⟨hc, hleft⟩ := List.cons_prefix_cons.mp hfront
      exact absurd (by rw [hc, List.prefix_nil.mp hleft]; rfl) hne
  | cons b bytes ih =>
    have hcons : ((b :: bytes).flatMap fun b => [1, b]) ++ [0]
        = 1 :: b :: ((bytes.flatMap fun b => [1, b]) ++ [0]) := rfl
    rw [hcons] at hfront hne
    cases left with
    | nil => rfl
    | cons c left =>
      obtain ⟨rfl, hrest⟩ := List.cons_prefix_cons.mp hfront
      cases left with
      | nil => rfl
      | cons d left =>
        obtain ⟨rfl, hblocks⟩ := List.cons_prefix_cons.mp hrest
        have htorn := ih hblocks fun heq => hne (by rw [heq])
        rw [unblock, htorn]
        rfl

theorem unframe_torn (ms : List (List (List UInt8))) {buffers : List (List UInt8)} {n : ℕ}
    {left : List UInt8} (hn : ms.length < n) (hfront : left <+: frame buffers) (hnil : left ≠ [])
    (hne : left ≠ frame buffers) : (unframe n ((ms.map frame).flatten ++ left)).2 ≠ none := by
  induction ms generalizing n with
  | nil =>
    cases n with
    | zero => cases hn
    | succ n =>
      rw [List.map_nil, List.flatten_nil, List.nil_append]
      rw [frame] at hfront hne
      cases left with
      | nil => exact absurd rfl hnil
      | cons c left =>
        obtain ⟨rfl, hrest⟩ := List.cons_prefix_cons.mp hfront
        cases left with
        | nil => exact Option.some_ne_none _
        | cons d left =>
          obtain ⟨rfl, hblocks⟩ := List.cons_prefix_cons.mp hrest
          have htorn := unblock_torn _ hblocks fun heq => hne (by rw [heq]; rfl)
          rw [unframe, htorn]
          exact Option.some_ne_none _
  | cons m ms ih =>
    cases n with
    | zero => cases hn
    | succ n =>
      have hblocks : ((m :: ms).map frame).flatten ++ left = 31 :: 139 ::
          ((m.flatten.flatMap fun b => [1, b]) ++ 0 :: ((ms.map frame).flatten ++ left)) := by
        rw [List.map_cons, List.flatten_cons, frame]
        simp
      rw [hblocks, unframe, unblock_blocks]
      exact ih (Nat.lt_of_succ_lt_succ hn)

theorem length_members (ms : List (List (List UInt8))) :
    ms.length ≤ (ms.map frame).flatten.length := by
  induction ms with
  | nil => exact le_refl 0
  | cons m ms ih =>
    rw [List.map_cons, List.flatten_cons, List.length_append, List.length_cons, frame]
    simp only [List.length_append, List.length_cons]
    omega

theorem framed_correct : framed.Correct := by
  constructor
  · intro buffers h
    cases h
  · intro ms _
    exact unframe_members ms (length_members ms)

theorem framed_stopsAtTorn : framed.StopsAtTorn := by
  intro ms m left hfront hnil hne
  refine unframe_torn ms ?_ hfront hnil hne
  have := length_members ms
  have hpos := List.length_pos_of_ne_nil hnil
  show ms.length < ((ms.map frame).flatten ++ left).length
  rw [List.length_append]
  omega

/-- one line is written and ended; the next one is in the encoder when the process dies -/
def interrupted (left : List UInt8) : List Event :=
  [.append, .write "a\n".toList, .flush, .write "b\n".toList, .crash left, .append,
    .write "c\n".toList, .drop]

def recoveredState : Sys where
  file := (([["a\n"], ["c\n"]].map fun m => m.map fun t => utf8 t.toList).map frame).flatten
  writer := none
  log := [.ended "a\n".toList, .torn "b\n".toList, .ended "c\n".toList]

theorem log_recovered_lost : Recovered framed "calls.jsonl.gz" recoveredState := by
  have hrun : Runs.run (step framed) init (interrupted []) = some recoveredState := by
    decide +kernel
  refine log_recovered framed_correct (by decide +kernel) hrun ?_
  refine Runs.along_mono (fun s e h => h s)
    (Runs.along_of_events (G := fun e => ∀ s, CleanCrash framed s e) ?_ init)
  intro e he
  cases e with
  | crash left =>
    obtain rfl : left = [] := by simpa [interrupted] using he
    exact fun _ _ _ => Or.inl rfl
  | _ => exact fun _ => trivial

/-- **Half a member hides the whole log**, also what is appended behind it. -/
theorem torn_member_hides : framed.Correct ∧ framed.StopsAtTorn ∧ ∃ s,
    Runs.run (step framed) init (interrupted [31, 139, 1]) = some s ∧
    readToString framed "calls.jsonl.gz" s.file = .error .decoder ∧
    ¬ Recovered framed "calls.jsonl.gz" s := by
  have hrun : (Runs.run (step framed) init (interrupted [31, 139, 1])).map
      (fun s => readToString framed "calls.jsonl.gz" s.file) = some (.error .decoder) := by
    decide +kernel
  obtain ⟨s, hs, hread⟩ := Option.map_eq_some_iff.mp hrun
  refine ⟨framed_correct, framed_stopsAtTorn, s, hs, hread, fun h => ?_⟩
  obtain ⟨text, htext, -⟩ := h
  rw [hread] at htext
  cases htext

end Moagan.Compression
