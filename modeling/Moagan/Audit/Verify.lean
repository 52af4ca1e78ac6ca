import Mathlib.Data.List.AList
import Mathlib.Data.List.Sort
import Mathlib.Data.Prod.Lex
import Mathlib.Data.String.Basic
import Mathlib.Order.Interval.Set.Defs
import Moagan.Lib.FirstFit

/-!
# The cross-check of the audit log with the call log (`src/audit/verify.rs`)

* `AuditRecord`, `CallEvent`, `CallRow`   what is read of a line, and of a row of the database
* `pairExternalRecords`    the calls of the audit log, through a map of the ids
* `parseInternalCalls`     the calls of the call log
* `matchCalls`             first fit on the sorted calls, by the hash and then without it
* `verifyInner`            the report
* `matchCalls_max`         the matches are as many as there can be, and every call is accounted for
                           once

`Readers` are what reads one line, and `F` its floating point numbers.
-/

namespace Moagan.Audit

open FirstFit

def MATCH_WINDOW_SECS : ℕ := 1

structure AuditRecord (F : Type) where
  ts : F
  event : String
  id : String
  bodySha256 : String

structure CallEvent where
  callId : String
  provider : String
  bodySha256 : Option String
  cacheHit : Bool
  startedUnix : ℤ
deriving DecidableEq, Repr

structure CallRow where
  callId : String
  bodySha256 : Option String
  cacheHit : ℤ
deriving DecidableEq, Repr

/-- what reads one line: the checksum, the record of the audit log, the event of the call log -/
structure Readers (F : Type) where
  crcValid : String → Bool
  record : String → Option (AuditRecord F)
  event : String → Option CallEvent
  /-- `ts.floor() as i64` -/
  floorI64 : F → ℤ

structure VerifyReport where
  matchCount : ℕ
  bodyMismatchCount : ℕ
  orphanRequestCount : ℕ
  orphanResponseCount : ℕ
  unmatchedInternalCount : ℕ
  unmatchedExternalCount : ℕ
  crcInvalidCount : ℕ
  auditFileMissing : Bool
  internalFileMissing : Bool
  internalFileInvalid : Bool
deriving DecidableEq, Repr

/-- `VerifyReport::default()` -/
def VerifyReport.empty : VerifyReport := ⟨0, 0, 0, 0, 0, 0, 0, false, false, false⟩

structure ExternalCall where
  id : String
  bodySha256 : String
  startedUnix : ℤ
deriving DecidableEq, Repr

structure InternalCall where
  callId : String
  bodySha256 : String
  startedUnix : ℤ
deriving DecidableEq, Repr

/-! ## the audit log -/

structure ExternalPair (F : Type) where
  request : Option (AuditRecord F)
  terminal : Option (AuditRecord F)
  duplicate : Bool

def ExternalPair.new {F : Type} : ExternalPair F := ⟨none, none, false⟩

section
variable {F : Type} (readers : Readers F)

def ExternalPair.add (pair : ExternalPair F) (record : AuditRecord F) : ExternalPair F :=
  if record.event = "request" then
    { pair with
      request := some record
      duplicate := pair.duplicate || pair.request.isSome }
  else if record.event = "response" ∨ record.event = "upstream_error" then
    { pair with
      terminal := some record
      duplicate := pair.duplicate || pair.terminal.isSome }
  else { pair with duplicate := true }

/-- `HashMap<String, ExternalPair>` -/
abbrev Pairs (F : Type) := AList fun _ : String => ExternalPair F

def addRecord (pairs : Pairs F) (record : AuditRecord F) : Pairs F :=
  pairs.insert record.id (((pairs.lookup record.id).getD .new).add record)

/-- the order in which a map iterates -/
structure IterationOrder (α : Type) where
  order : List α → List α
  perm : ∀ l, (order l).Perm l

def pairsOf (records : List (AuditRecord F)) : Pairs F := records.foldl addRecord ∅

def addPair (s : VerifyReport × List ExternalCall) (e : String × ExternalPair F) :
    VerifyReport × List ExternalCall :=
  if e.2.duplicate then ({ s.1 with crcInvalidCount := s.1.crcInvalidCount + 1 }, s.2)
  else
    match e.2.request, e.2.terminal with
    | some request, some _ =>
      if request.bodySha256 ≠ "" then
        (s.1, s.2 ++ [⟨e.1, request.bodySha256, readers.floorI64 request.ts⟩])
      else ({ s.1 with crcInvalidCount := s.1.crcInvalidCount + 1 }, s.2)
    | some _, none => ({ s.1 with orphanRequestCount := s.1.orphanRequestCount + 1 }, s.2)
    | none, some _ => ({ s.1 with orphanResponseCount := s.1.orphanResponseCount + 1 }, s.2)
    | none, none => s

def ExternalCall.key (c : ExternalCall) : ℤ ×ₗ String := toLex (c.startedUnix, c.id)

def sortExternal (external : List ExternalCall) : List ExternalCall :=
  external.insertionSort fun left right => left.key ≤ right.key

def pairEntries (order : IterationOrder (String × ExternalPair F))
    (records : List (AuditRecord F)) : List (String × ExternalPair F) :=
  order.order ((pairsOf records).entries.map fun e => (e.1, e.2))

def pairExternalRecords (order : IterationOrder (String × ExternalPair F))
    (records : List (AuditRecord F)) (report : VerifyReport) : VerifyReport × List ExternalCall :=
  let s := (pairEntries order records).foldl (addPair readers) (report, [])
  (s.1, sortExternal s.2)

/-- `count_invalid_crcs` -/
def countInvalidCrcs (lines : List String) : ℕ :=
  (lines.filter (· ≠ "")).countP fun line => !readers.crcValid line

def parseAuditRecords (lines : List String) : List (AuditRecord F) :=
  (lines.filter (· ≠ "")).filterMap readers.record

/-! ## the call log -/

def addLine (s : VerifyReport × List InternalCall) (line : String) :
    VerifyReport × List InternalCall :=
  match readers.event line with
  | none => ({ s.1 with internalFileInvalid := true }, s.2)
  | some event =>
    if event.cacheHit then s
    else
      match event.bodySha256 with
      | some bodySha256 =>
        if bodySha256 ≠ "" then (s.1, s.2 ++ [⟨event.callId, bodySha256, event.startedUnix⟩])
        else ({ s.1 with internalFileInvalid := true }, s.2)
      | none =>
        if event.provider ≠ "minimax" then s
        else ({ s.1 with internalFileInvalid := true }, s.2)

def InternalCall.key (c : InternalCall) : ℤ ×ₗ String := toLex (c.startedUnix, c.callId)

def sortInternal (internal : List InternalCall) : List InternalCall :=
  internal.insertionSort fun left right => left.key ≤ right.key

def parseInternalCalls (lines : List String) (report : VerifyReport) :
    VerifyReport × List InternalCall :=
  let s := (lines.filter (· ≠ "")).foldl (addLine readers) (report, [])
  (s.1, sortInternal s.2)

/-- rows that the calls do not confirm, and calls without a row -/
def compareSqlite (rows : List CallRow) (internal : List InternalCall) : ℕ :=
  let rows := rows.filter (·.cacheHit = 0)
  -- `collect` into a map: the last call of an id counts
  let expected (id : String) : Option String :=
    (internal.reverse.find? (·.callId = id)).map (·.bodySha256)
  rows.countP (fun row =>
      !(match expected row.callId, row.bodySha256 with
        | some expectedHash, some actualHash => expectedHash == actualHash
        | _, _ => false))
    + internal.countP fun call => !(rows.map (·.callId)).contains call.callId

/-! ## matching -/

def withinWindow (left right : ℤ) : Bool := (left - right).natAbs ≤ MATCH_WINDOW_SECS

def sameCall (external : ExternalCall) (internal : InternalCall) : Bool :=
  internal.bodySha256 == external.bodySha256
    && withinWindow internal.startedUnix external.startedUnix

def otherBody (external : ExternalCall) (internal : InternalCall) : Bool :=
  internal.bodySha256 != external.bodySha256
    && withinWindow internal.startedUnix external.startedUnix

/-- the first of the calls that is not used and fits is used -/
def useFirst (fits : InternalCall → Bool) :
    List (InternalCall × Bool) → Option (List (InternalCall × Bool))
  | [] => none
  | (call, used) :: rest =>
    if !used && fits call then some ((call, true) :: rest)
    else (useFirst fits rest).map ((call, used) :: ·)

/-- one pass over the external calls that are not used; with the number of calls that it pairs -/
def matchPass (fits : ExternalCall → InternalCall → Bool) :
    List (ExternalCall × Bool) → List (InternalCall × Bool) →
    List (ExternalCall × Bool) × List (InternalCall × Bool) × ℕ
  | [], internal => ([], internal, 0)
  | (call, true) :: external, internal =>
    let (external, internal, n) := matchPass fits external internal
    ((call, true) :: external, internal, n)
  | (call, false) :: external, internal =>
    match useFirst (fits call) internal with
    | none =>
      let (external, internal, n) := matchPass fits external internal
      ((call, false) :: external, internal, n)
    | some internal =>
      let (external, internal, n) := matchPass fits external internal
      ((call, true) :: external, internal, n + 1)

def matchCalls (external : List ExternalCall) (internal : List InternalCall)
    (report : VerifyReport) : VerifyReport :=
  let (external, internal, matched) :=
    matchPass sameCall (external.map (·, false)) (internal.map (·, false))
  let (external, internal, mismatched) := matchPass otherBody external internal
  { report with
    matchCount := report.matchCount + matched
    bodyMismatchCount := report.bodyMismatchCount + mismatched
    unmatchedExternalCount := report.unmatchedExternalCount + external.countP fun e => !e.2
    unmatchedInternalCount := report.unmatchedInternalCount + internal.countP fun i => !i.2 }

/-! ## the report -/

/-- a log as it is found, with the lines of its text -/
inductive LogFile where
  | missing
  | unreadable
  | text (lines : List String)
deriving DecidableEq, Repr

/-- `db` are the rows of the run in the database, when it is to be compared -/
def verifyInner {E : Type} (order : IterationOrder (String × ExternalPair F))
    (audit calls : LogFile) (db : Option (Except E (List CallRow))) : Except E VerifyReport :=
  match audit with
  | .missing => .ok { VerifyReport.empty with auditFileMissing := true }
  | audit =>
    match calls with
    | .missing => .ok { VerifyReport.empty with internalFileMissing := true }
    | calls =>
      match audit with
      | .text auditLines =>
        let report := { VerifyReport.empty with
          crcInvalidCount := countInvalidCrcs readers auditLines }
        let (report, external) :=
          pairExternalRecords readers order (parseAuditRecords readers auditLines) report
        match calls with
        | .text callLines =>
          let (report, internal) := parseInternalCalls readers callLines report
          if report.internalFileInvalid then .ok report
          else do
            let dbDiscrepancies ←
              match db with
              | some rows => rows.map fun rows => compareSqlite rows internal
              | none => .ok 0
            let report := matchCalls external internal report
            .ok { report with
              unmatchedInternalCount := report.unmatchedInternalCount + dbDiscrepancies }
        | _ => .ok { report with internalFileInvalid := true }
      | _ => .ok { VerifyReport.empty with crcInvalidCount := 1 }

end

/-! ## the passes -/

/-- the calls that are not used -/
def unused {α : Type} (calls : List (α × Bool)) : List α :=
  (calls.filter fun c => !c.2).map Prod.fst

theorem unused_length {α : Type} (calls : List (α × Bool)) :
    (unused calls).length = calls.countP fun c => !c.2 := by
  unfold unused
  rw [List.length_map, List.countP_eq_length_filter]

theorem unused_fresh {α : Type} (calls : List α) : unused (calls.map (·, false)) = calls := by
  unfold unused
  rw [List.filter_map, List.map_map]
  simp [Function.comp_def]

theorem unused_cons_true {α : Type} (c : α) (calls : List (α × Bool)) :
    unused ((c, true) :: calls) = unused calls := rfl

theorem unused_cons_false {α : Type} (c : α) (calls : List (α × Bool)) :
    unused ((c, false) :: calls) = c :: unused calls := rfl

variable {fits : InternalCall → Bool} {r : ExternalCall → InternalCall → Bool}

theorem useFirst_none {calls : List (InternalCall × Bool)} (h : useFirst fits calls = none) :
    (unused calls).any fits = false := by
  induction calls with
  | nil => rfl
  | cons c calls ih =>
    obtain ⟨call, used⟩ := c
    unfold useFirst at h
    split at h
    · cases h
    · rename_i hno
      have hrest := ih (Option.map_eq_none_iff.mp h)
      cases used with
      | true => exact hrest
      | false =>
        have hfits : fits call = false := by simpa using hno
        rw [unused_cons_false, List.any_cons, hfits, hrest]
        rfl

theorem useFirst_some {calls calls' : List (InternalCall × Bool)}
    (h : useFirst fits calls = some calls') :
    (unused calls).any fits = true ∧ unused calls' = (unused calls).eraseP fits := by
  induction calls generalizing calls' with
  | nil => cases h
  | cons c calls ih =>
    obtain ⟨call, used⟩ := c
    unfold useFirst at h
    split at h
    · rename_i hyes
      obtain rfl := Option.some.inj h
      obtain ⟨hused, hfits⟩ := (Bool.and_eq_true ..).mp hyes
      obtain rfl : used = false := by simpa using hused
      rw [unused_cons_false, unused_cons_true, List.any_cons, hfits, List.eraseP_cons_of_pos hfits]
      exact ⟨rfl, rfl⟩
    · rename_i hno
      obtain ⟨rest, hrest, rfl⟩ := Option.map_eq_some_iff.mp h
      obtain ⟨hany, herase⟩ := ih hrest
      cases used with
      | true => exact ⟨hany, herase⟩
      | false =>
        have hfits : fits call = false := by simpa using hno
        rw [unused_cons_false, unused_cons_false, List.any_cons, hany, herase,
          List.eraseP_cons_of_neg (by rw [hfits]; exact Bool.false_ne_true)]
        exact ⟨Bool.or_true _, rfl⟩

/-- **A pass pairs what the first fit pairs, and leaves the rest unused.** -/
theorem matchPass_spec (external : List (ExternalCall × Bool)) :
    ∀ internal : List (InternalCall × Bool),
    (matchPass r external internal).2.2 = firstFit r (unused external) (unused internal) ∧
      (unused external).length = (matchPass r external internal).2.2
        + (unused (matchPass r external internal).1).length ∧
      (unused internal).length = (matchPass r external internal).2.2
        + (unused (matchPass r external internal).2.1).length := by
  induction external with
  | nil =>
    intro internal
    exact ⟨rfl, rfl, (Nat.zero_add _).symm⟩
  | cons e external ih =>
    intro internal
    obtain ⟨call, used⟩ := e
    cases used with
    | true => exact ih internal
    | false =>
      rw [unused_cons_false, matchPass, firstFit]
      cases huse : useFirst (r call) internal with
      | none =>
        obtain ⟨hn, he, hi⟩ := ih internal
        rw [useFirst_none huse]
        refine ⟨hn, ?_, hi⟩
        show (unused external).length + 1 = (matchPass r external internal).2.2
          + ((unused (matchPass r external internal).1).length + 1)
        omega
      | some internal' =>
        obtain ⟨hany, herase⟩ := useFirst_some huse
        obtain ⟨hn, he, hi⟩ := ih internal'
        rw [hany, if_pos rfl, ← herase]
        refine ⟨congrArg (· + 1) hn, ?_, ?_⟩
        · show (unused external).length + 1 = (matchPass r external internal').2.2 + 1
            + (unused (matchPass r external internal').1).length
          omega
        · show (unused internal).length = (matchPass r external internal').2.2 + 1
            + (unused (matchPass r external internal').2.1).length
          have hlen := List.length_eraseP (p := r call) (l := unused internal)
          rw [hany, if_pos rfl, ← herase] at hlen
          have hpos : 0 < (unused internal).length := by
            obtain ⟨c, hc, -⟩ := List.any_eq_true.mp hany
            exact List.length_pos_of_mem hc
          omega

/-- what `matchCalls` adds to a report -/
theorem matchCalls_eq (external : List ExternalCall) (internal : List InternalCall)
    (report : VerifyReport) :
    matchCalls external internal report =
      let first := matchPass sameCall (external.map (·, false)) (internal.map (·, false))
      let second := matchPass otherBody first.1 first.2.1
      { report with
        matchCount := report.matchCount + first.2.2
        bodyMismatchCount := report.bodyMismatchCount + second.2.2
        unmatchedExternalCount := report.unmatchedExternalCount + (unused second.1).length
        unmatchedInternalCount := report.unmatchedInternalCount + (unused second.2.1).length } := by
  dsimp only
  rw [unused_length, unused_length]
  rfl

/-! ## the greatest number of matches -/

theorem sortExternal_sorted (external : List ExternalCall) :
    (sortExternal external).Pairwise fun a b => a.key ≤ b.key := by
  have htotal : Std.Total fun a b : ExternalCall => a.key ≤ b.key := ⟨fun a b => le_total _ _⟩
  have htrans : IsTrans ExternalCall fun a b => a.key ≤ b.key := ⟨fun _ _ _ => le_trans⟩
  exact List.pairwise_insertionSort _ external

theorem sortInternal_sorted (internal : List InternalCall) :
    (sortInternal internal).Pairwise fun a b => a.key ≤ b.key := by
  have htotal : Std.Total fun a b : InternalCall => a.key ≤ b.key := ⟨fun a b => le_total _ _⟩
  have htrans : IsTrans InternalCall fun a b => a.key ≤ b.key := ⟨fun _ _ _ => le_trans⟩
  exact List.pairwise_insertionSort _ internal

theorem sortExternal_perm (external : List ExternalCall) :
    (sortExternal external).Perm external := List.perm_insertionSort _ _

theorem sortInternal_perm (internal : List InternalCall) :
    (sortInternal internal).Perm internal := List.perm_insertionSort _ _

theorem fst_le_of_key {a b : ℤ} {x y : String} (h : toLex (a, x) ≤ toLex (b, y)) : a ≤ b :=
  (Prod.Lex.toLex_le_toLex.mp h).elim le_of_lt fun h => h.1.le

theorem sameCall_iff {e : ExternalCall} {i : InternalCall} :
    sameCall e i = true ↔
      i.bodySha256 = e.bodySha256 ∧ (i.startedUnix - e.startedUnix).natAbs ≤ MATCH_WINDOW_SECS := by
  unfold sameCall withinWindow
  rw [Bool.and_eq_true, beq_iff_eq, decide_eq_true_eq]

/-- the window is the same for all, so that later calls of both logs fit when each fits an earlier
one of the other -/
theorem sameCall_exchange (e e' : ExternalCall) (i i' : InternalCall) (he : e.key ≤ e'.key)
    (hi : i.key ≤ i'.key) (hei : sameCall e i = true) (hei' : sameCall e i' = true)
    (he'i : sameCall e' i = true) : sameCall e' i' = true := by
  have het := fst_le_of_key he
  have hit := fst_le_of_key hi
  rw [sameCall_iff] at hei hei' he'i ⊢
  exact ⟨hei'.1.trans (hei.1.symm.trans he'i.1), by omega⟩

/-- matchings are those of the calls in whatever order -/
theorem matching_perm {external external' : List ExternalCall}
    {internal internal' : List InternalCall} (he : external.Perm external')
    (hi : internal.Perm internal') {ps : List (ExternalCall × InternalCall)} :
    Matching sameCall external internal ps ↔ Matching sameCall external' internal' ps :=
  ⟨fun h => ⟨h.left.trans he.subperm, h.right.trans hi.subperm, h.fit⟩,
    fun h => ⟨h.left.trans he.symm.subperm, h.right.trans hi.symm.subperm, h.fit⟩⟩

/-- the first pass over the sorted calls makes as many pairs as there can be -/
theorem sameCall_max (external : List ExternalCall) (internal : List InternalCall) :
    IsGreatest {k | ∃ ps, Matching sameCall external internal ps ∧ ps.length = k}
      (matchPass sameCall ((sortExternal external).map (·, false))
        ((sortInternal internal).map (·, false))).2.2 := by
  obtain ⟨hn, -, -⟩ := matchPass_spec (r := sameCall) ((sortExternal external).map (·, false))
    ((sortInternal internal).map (·, false))
  rw [unused_fresh, unused_fresh] at hn
  rw [hn]
  have hmax := firstFit_max sameCall_exchange (sortExternal_sorted external)
    (sortInternal_sorted internal)
  have hsame : ∀ ps, Matching sameCall (sortExternal external) (sortInternal internal) ps ↔
      Matching sameCall external internal ps :=
    fun ps => matching_perm (sortExternal_perm external) (sortInternal_perm internal)
  simp only [hsame] at hmax
  exact hmax

/-- **The matches of the sorted calls are as many as there can be**, and every call is accounted for
once. -/
theorem matchCalls_max (external : List ExternalCall) (internal : List InternalCall)
    (report : VerifyReport) :
    ∃ matched mismatched restExternal restInternal,
      matchCalls (sortExternal external) (sortInternal internal) report =
        { report with
          matchCount := report.matchCount + matched
          bodyMismatchCount := report.bodyMismatchCount + mismatched
          unmatchedExternalCount := report.unmatchedExternalCount + restExternal
          unmatchedInternalCount := report.unmatchedInternalCount + restInternal } ∧
      IsGreatest {k | ∃ ps, Matching sameCall external internal ps ∧ ps.length = k} matched ∧
      matched + mismatched + restExternal = external.length ∧
      matched + mismatched + restInternal = internal.length := by
  have heq := matchCalls_eq (sortExternal external) (sortInternal internal) report
  have hmax := sameCall_max external internal
  obtain ⟨-, he, hi⟩ := matchPass_spec (r := sameCall) ((sortExternal external).map (·, false))
    ((sortInternal internal).map (·, false))
  rw [unused_fresh, (sortExternal_perm external).length_eq] at he
  rw [unused_fresh, (sortInternal_perm internal).length_eq] at hi
  generalize matchPass sameCall ((sortExternal external).map (·, false))
    ((sortInternal internal).map (·, false)) = first at heq hmax he hi
  obtain ⟨-, he', hi'⟩ := matchPass_spec (r := otherBody) first.1 first.2.1
  refine ⟨_, _, _, _, heq, hmax, ?_, ?_⟩
  · rw [he, he', Nat.add_assoc]
  · rw [hi, hi', Nat.add_assoc]

end Moagan.Audit
