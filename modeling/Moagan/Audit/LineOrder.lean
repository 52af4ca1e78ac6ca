import Moagan.Lib.AnyOrder
import Moagan.Audit.Verify

/-!
# The order of the lines of the logs (`src/audit/verify.rs`)

* `Alike`              pairs that count as the same
* `pairsOf_alike`      the records of the audit log, in any order
* `pairEntries_perm`   what the ids count as, in any order of the lines and of the map
* `pairExternalRecords_perm`, `parseInternalCalls_perm`   the sorted calls of the two logs
* `verifyInner_perm`   the report
* `audit_matching`     the three facts about the counts together
-/

namespace Moagan.Audit

open AnyOrder FirstFit

section
variable {F : Type} {readers : Readers F}

/-! ## the pairs -/

/-- the same pair, or two that are both duplicates -/
def Alike (p q : ExternalPair F) : Prop := p = q ∨ (p.duplicate = true ∧ q.duplicate = true)

theorem Alike.refl (p : ExternalPair F) : Alike p p := .inl rfl

theorem Alike.trans {p q s : ExternalPair F} (h : Alike p q) (h' : Alike q s) : Alike p s := by
  obtain rfl | ⟨hp, hq⟩ := h
  · exact h'
  · obtain rfl | ⟨_, hs⟩ := h'
    · exact .inr ⟨hp, hq⟩
    · exact .inr ⟨hp, hs⟩

/-- a record is a request, an answer, or makes the pair a duplicate -/
theorem add_cases (r : AuditRecord F) :
    (∀ p : ExternalPair F, p.add r = ⟨some r, p.terminal, p.duplicate || p.request.isSome⟩) ∨
      (∀ p : ExternalPair F, p.add r = ⟨p.request, some r, p.duplicate || p.terminal.isSome⟩) ∨
      ∀ p : ExternalPair F, (p.add r).duplicate = true := by
  unfold ExternalPair.add
  by_cases h : r.event = "request"
  · exact .inl fun p => if_pos h
  · simp only [if_neg h]
    by_cases h' : r.event = "response" ∨ r.event = "upstream_error"
    · exact .inr (.inl fun p => if_pos h')
    · simp only [if_neg h']
      exact .inr (.inr fun _ => trivial)

theorem add_duplicate {p : ExternalPair F} (h : p.duplicate = true) (r : AuditRecord F) :
    (p.add r).duplicate = true := by
  obtain hr | hr | hr := add_cases r
  · rw [hr, h]
    rfl
  · rw [hr, h]
    rfl
  · exact hr p

theorem add_alike {p q : ExternalPair F} (r : AuditRecord F) (h : Alike p q) :
    Alike (p.add r) (q.add r) := by
  obtain rfl | ⟨hp, hq⟩ := h
  · exact .inl rfl
  · exact .inr ⟨add_duplicate hp r, add_duplicate hq r⟩

/-- a request and an answer change different fields, and two of a kind make a duplicate -/
theorem add_swap (p : ExternalPair F) (r r' : AuditRecord F) :
    Alike ((p.add r).add r') ((p.add r').add r) := by
  obtain h | h | h := add_cases r
  · obtain h' | h' | h' := add_cases r'
    · rw [h', h, h, h']
      exact .inr ⟨Bool.or_true _, Bool.or_true _⟩
    · rw [h', h, h, h']
      exact .inl (congrArg (ExternalPair.mk _ _) (Bool.or_right_comm _ _ _))
    · exact .inr ⟨h' _, add_duplicate (h' p) r⟩
  · obtain h' | h' | h' := add_cases r'
    · rw [h', h, h, h']
      exact .inl (congrArg (ExternalPair.mk _ _) (Bool.or_right_comm _ _ _))
    · rw [h', h, h, h']
      exact .inr ⟨Bool.or_true _, Bool.or_true _⟩
    · exact .inr ⟨h' _, add_duplicate (h' p) r⟩
  · exact .inr ⟨add_duplicate (h p) r', h _⟩

/-! ## the map -/

theorem lookup_addRecord (pairs : Pairs F) (r : AuditRecord F) (id : String) :
    (addRecord pairs r).lookup id =
      if id = r.id then some (((pairs.lookup id).getD .new).add r) else pairs.lookup id := by
  unfold addRecord
  by_cases h : id = r.id
  · rw [if_pos h, h, AList.lookup_insert]
  · rw [if_neg h, AList.lookup_insert_ne h]

/-- each id has pairs that are alike -/
def PairsAlike (pairs pairs' : Pairs F) : Prop :=
  ∀ id, Option.Rel Alike (pairs.lookup id) (pairs'.lookup id)

theorem rel_refl (o : Option (ExternalPair F)) : Option.Rel Alike o o := by
  cases o with
  | none => exact .none
  | some p => exact .some (.refl p)

theorem rel_trans {o o' o'' : Option (ExternalPair F)} (h : Option.Rel Alike o o')
    (h' : Option.Rel Alike o' o'') : Option.Rel Alike o o'' := by
  cases h with
  | none => exact h'
  | some h =>
    cases h' with
    | some h' => exact .some (h.trans h')

theorem getD_alike {o o' : Option (ExternalPair F)} (h : Option.Rel Alike o o') :
    Alike (o.getD .new) (o'.getD .new) := by
  cases h with
  | none => exact .refl _
  | some h => exact h

theorem addRecord_alike (pairs pairs' : Pairs F) (r : AuditRecord F) (h : PairsAlike pairs pairs') :
    PairsAlike (addRecord pairs r) (addRecord pairs' r) := by
  intro id
  rw [lookup_addRecord, lookup_addRecord]
  by_cases hid : id = r.id
  · rw [if_pos hid, if_pos hid]
    exact .some (add_alike r (getD_alike (h id)))
  · rw [if_neg hid, if_neg hid]
    exact h id

theorem addRecord_swap (pairs : Pairs F) (r r' : AuditRecord F) :
    PairsAlike (addRecord (addRecord pairs r) r') (addRecord (addRecord pairs r') r) := by
  intro id
  simp only [lookup_addRecord]
  by_cases h : id = r.id
  · by_cases h' : id = r'.id
    · rw [if_pos h, if_pos h, if_pos h', if_pos h']
      exact .some (add_swap _ r r')
    · rw [if_pos h, if_pos h, if_neg h', if_neg h']
      exact rel_refl _
  · rw [if_neg h, if_neg h]
    exact rel_refl _

theorem pairsOf_alike {records records' : List (AuditRecord F)} (h : records.Perm records') :
    PairsAlike (pairsOf records) (pairsOf records') :=
  foldl_perm (fun _ _ => rel_refl _) (fun _ _ _ h h' id => rel_trans (h id) (h' id))
    addRecord_alike addRecord_swap h ∅ ∅ fun _ => rel_refl _

/-! ## what the ids count as -/

/-- what the pair of an id counts as -/
inductive Outcome where
  | invalid
  | call (bodySha256 : String) (startedUnix : ℤ)
  | orphanRequest
  | orphanResponse
  | nothing
deriving DecidableEq, Repr

def Outcome.count : VerifyReport → Outcome → VerifyReport
  | report, invalid => { report with crcInvalidCount := report.crcInvalidCount + 1 }
  | report, orphanRequest => { report with orphanRequestCount := report.orphanRequestCount + 1 }
  | report, orphanResponse => { report with orphanResponseCount := report.orphanResponseCount + 1 }
  | report, _ => report

def Outcome.calls (id : String) : Outcome → List ExternalCall
  | call bodySha256 startedUnix => [⟨id, bodySha256, startedUnix⟩]
  | _ => []

variable (readers) in
def ExternalPair.outcome (pair : ExternalPair F) : Outcome :=
  if pair.duplicate then .invalid
  else
    match pair.request, pair.terminal with
    | some request, some _ =>
      if request.bodySha256 ≠ "" then .call request.bodySha256 (readers.floorI64 request.ts)
      else .invalid
    | some _, none => .orphanRequest
    | none, some _ => .orphanResponse
    | none, none => .nothing

theorem addPair_eq (s : VerifyReport × List ExternalCall) (e : String × ExternalPair F) :
    addPair readers s e =
      ((e.2.outcome readers).count s.1, s.2 ++ (e.2.outcome readers).calls e.1) := by
  obtain ⟨id, request, terminal, duplicate⟩ := e
  unfold addPair ExternalPair.outcome
  cases duplicate with
  | true => exact Prod.ext rfl (List.append_nil _).symm
  | false =>
    cases request with
    | none =>
      cases terminal with
      | none => exact Prod.ext rfl (List.append_nil _).symm
      | some _ => exact Prod.ext rfl (List.append_nil _).symm
    | some request =>
      cases terminal with
      | none => exact Prod.ext rfl (List.append_nil _).symm
      | some _ =>
        by_cases h : request.bodySha256 ≠ ""
        · simp only [if_pos h]
          rfl
        · simp only [if_neg h]
          exact Prod.ext rfl (List.append_nil _).symm

theorem count_swap (report : VerifyReport) (o o' : Outcome) :
    (o'.count (o.count report)) = o.count (o'.count report) := by
  cases o <;> cases o' <;> rfl

theorem outcome_alike {p q : ExternalPair F} (h : Alike p q) :
    p.outcome readers = q.outcome readers := by
  obtain rfl | ⟨hp, hq⟩ := h
  · rfl
  · unfold ExternalPair.outcome
    rw [if_pos hp, if_pos hq]

variable (readers) in
/-- the ids of the log, and what their pairs count as -/
def outcomes (order : IterationOrder (String × ExternalPair F)) (records : List (AuditRecord F)) :
    List (String × Outcome) :=
  (pairEntries order records).map fun e => (e.1, e.2.outcome readers)

theorem mem_outcomes {order : IterationOrder (String × ExternalPair F)}
    {records : List (AuditRecord F)} {id : String} {o : Outcome} :
    (id, o) ∈ outcomes readers order records ↔
      ∃ p, (pairsOf records).lookup id = some p ∧ p.outcome readers = o := by
  unfold outcomes pairEntries
  rw [((order.perm _).map _).mem_iff, List.map_map, List.mem_map]
  constructor
  · intro ⟨e, he, heq⟩
    obtain ⟨rfl, ho⟩ := Prod.mk.inj heq
    exact ⟨e.2, AList.mem_lookup_iff.mpr he, ho⟩
  · intro ⟨p, hp, ho⟩
    exact ⟨⟨id, p⟩, AList.mem_lookup_iff.mp hp, Prod.ext rfl ho⟩

theorem outcomes_keys (order : IterationOrder (String × ExternalPair F))
    (records : List (AuditRecord F)) :
    ((outcomes readers order records).map Prod.fst).Nodup := by
  unfold outcomes pairEntries
  rw [List.map_map, ((order.perm _).map _).nodup_iff, List.map_map]
  exact (pairsOf records).keys_nodup

variable (readers) in
/-- **Each id counts as the same**, in whatever order the lines are read and the map iterates. -/
theorem outcomes_perm {records records' : List (AuditRecord F)} (h : records.Perm records')
    (order order' : IterationOrder (String × ExternalPair F)) :
    (outcomes readers order records).Perm (outcomes readers order' records') := by
  have hsub : ∀ {records records' : List (AuditRecord F)} {order order'}, records.Perm records' →
      ∀ e ∈ outcomes readers order records, e ∈ outcomes readers order' records' := by
    intro records records' order order' h e he
    obtain ⟨p, hp, ho⟩ := mem_outcomes.mp he
    have hrel := pairsOf_alike h e.1
    rw [hp] at hrel
    cases hq : (pairsOf records').lookup e.1 with
    | none =>
      rw [hq] at hrel
      cases hrel
    | some q =>
      rw [hq] at hrel
      cases hrel with
      | some hrel => exact mem_outcomes.mpr ⟨q, hq, (outcome_alike hrel).symm.trans ho⟩
  exact (List.perm_ext_iff_of_nodup (outcomes_keys order records).of_map
    (outcomes_keys order' records').of_map).mpr fun e => ⟨hsub h e, hsub h.symm e⟩

theorem calls_ids (l : List (String × Outcome)) :
    ((l.flatMap fun e => e.2.calls e.1).map ExternalCall.id).Sublist (l.map Prod.fst) := by
  induction l with
  | nil => exact .refl _
  | cons e l ih =>
    obtain ⟨id, o⟩ := e
    rw [List.flatMap_cons, List.map_append]
    cases o with
    | call _ _ => exact ih.cons_cons id
    | invalid => exact ih.cons id
    | orphanRequest => exact ih.cons id
    | orphanResponse => exact ih.cons id
    | nothing => exact ih.cons id

/-- **The calls of the audit log**, and what is counted of it, in any order of its lines. -/
theorem pairExternalRecords_perm {records records' : List (AuditRecord F)}
    (h : records.Perm records') (order order' : IterationOrder (String × ExternalPair F))
    (report : VerifyReport) :
    pairExternalRecords readers order records report =
      pairExternalRecords readers order' records' report := by
  have hfold : ∀ (order : IterationOrder (String × ExternalPair F)) (records),
      (pairEntries order records).foldl (addPair readers) (report, []) =
        (outcomes readers order records).foldl
          (fun s e => (e.2.count s.1, s.2 ++ e.2.calls e.1)) (report, []) := by
    intro order records
    unfold outcomes
    rw [List.foldl_map]
    congr 1
    funext s e
    exact addPair_eq s e
  obtain ⟨hreport, hcalls⟩ := collect_perm (fun r (e : String × Outcome) => e.2.count r)
    (fun e => e.2.calls e.1) (fun _ _ => rfl) (fun r a b => count_swap r a.2 b.2)
    (outcomes_perm readers h order order') (report, [])
  unfold pairExternalRecords
  rw [hfold, hfold]
  refine Prod.ext hreport (sort_perm ExternalCall.key hcalls ?_)
  intro a ha b hb hab
  rw [foldl_collect (fun r (e : String × Outcome) => e.2.count r) (fun e => e.2.calls e.1)
    fun _ _ => rfl] at ha hb
  have hids := (calls_ids (outcomes readers order records)).nodup (outcomes_keys order records)
  exact List.inj_on_of_nodup_map hids ha hb (Prod.mk.inj (toLex.injective hab)).2

/-! ## the call log -/

variable (readers) in
/-- a line is a call, or makes the log invalid, or neither -/
theorem addLine_cases (line : String) :
    (∃ calls, ∀ s, addLine readers s line = (s.1, s.2 ++ calls)) ∨
      ∀ s, addLine readers s line = ({ s.1 with internalFileInvalid := true }, s.2) := by
  unfold addLine
  have hskip : ∃ calls : List InternalCall, ∀ s : VerifyReport × List InternalCall,
      s = (s.1, s.2 ++ calls) := ⟨[], fun s => Prod.ext rfl (List.append_nil _).symm⟩
  cases readers.event line with
  | none => exact .inr fun _ => rfl
  | some event =>
    by_cases hhit : event.cacheHit = true
    · simp only [if_pos hhit]
      exact .inl hskip
    · simp only [if_neg hhit]
      cases event.bodySha256 with
      | none =>
        by_cases hprovider : event.provider ≠ "minimax"
        · simp only [if_pos hprovider]
          exact .inl hskip
        · simp only [if_neg hprovider]
          exact .inr fun _ => trivial
      | some bodySha256 =>
        by_cases hbody : bodySha256 ≠ ""
        · simp only [if_pos hbody]
          exact .inl ⟨_, fun _ => rfl⟩
        · simp only [if_neg hbody]
          exact .inr fun _ => trivial

variable (readers) in
def lineReport (report : VerifyReport) (line : String) : VerifyReport :=
  (addLine readers (report, []) line).1

variable (readers) in
def lineCalls (line : String) : List InternalCall := (addLine readers (.empty, []) line).2

theorem addLine_eq (s : VerifyReport × List InternalCall) (line : String) :
    addLine readers s line = (lineReport readers s.1 line, s.2 ++ lineCalls readers line) := by
  unfold lineReport lineCalls
  obtain ⟨calls, h⟩ | h := addLine_cases readers line
  · simp only [h, List.nil_append]
  · simp only [h, List.append_nil]

theorem lineReport_swap (report : VerifyReport) (line line' : String) :
    lineReport readers (lineReport readers report line) line' =
      lineReport readers (lineReport readers report line') line := by
  unfold lineReport
  obtain ⟨calls, h⟩ | h := addLine_cases readers line
  · simp only [h]
  · obtain ⟨calls', h'⟩ | h' := addLine_cases readers line'
    · simp only [h, h']
    · simp only [h, h']

variable (readers) in
/-- the calls that the call log has, with ids of their own -/
def DistinctCalls (lines : List String) : Prop :=
  ((parseInternalCalls readers lines .empty).2.map InternalCall.callId).Nodup

/-- **The calls of the call log**, and whether it is valid, in any order of its lines. -/
theorem parseInternalCalls_perm {lines lines' : List String} (h : lines.Perm lines')
    (hd : DistinctCalls readers lines) (report : VerifyReport) :
    parseInternalCalls readers lines report = parseInternalCalls readers lines' report := by
  obtain ⟨hreport, hcalls⟩ := collect_perm (lineReport readers) (lineCalls readers) addLine_eq
    lineReport_swap (h.filter (· ≠ "")) (report, [])
  refine Prod.ext hreport (sort_perm InternalCall.key hcalls ?_)
  have hids : ((sortInternal ((lines.filter (· ≠ "")).foldl (addLine readers)
      (.empty, [])).2).map InternalCall.callId).Nodup := hd
  rw [((sortInternal_perm _).map _).nodup_iff, foldl_collect (lineReport readers) _ addLine_eq] at hids
  intro a ha b hb hab
  rw [foldl_collect (lineReport readers) _ addLine_eq] at ha hb
  exact List.inj_on_of_nodup_map hids ha hb (Prod.mk.inj (toLex.injective hab)).2

/-! ## the report -/

/-- the same log, or the lines of a text in another order -/
inductive LogFile.SameLines : LogFile → LogFile → Prop
  | refl (log : LogFile) : SameLines log log
  | text {lines lines' : List String} : lines.Perm lines' → SameLines (.text lines) (.text lines')

variable (readers) in
/-- the calls of a log that can be read have ids of their own -/
def LogFile.DistinctCalls (log : LogFile) : Prop :=
  ∀ lines, log = .text lines → Audit.DistinctCalls readers lines

theorem auditLines_perm {lines lines' : List String} (h : lines.Perm lines')
    (order order' : IterationOrder (String × ExternalPair F)) :
    pairExternalRecords readers order (parseAuditRecords readers lines)
        { VerifyReport.empty with crcInvalidCount := countInvalidCrcs readers lines } =
      pairExternalRecords readers order' (parseAuditRecords readers lines')
        { VerifyReport.empty with crcInvalidCount := countInvalidCrcs readers lines' } := by
  have hcrc : countInvalidCrcs readers lines = countInvalidCrcs readers lines' :=
    (h.filter _).countP_eq _
  rw [hcrc]
  exact pairExternalRecords_perm ((h.filter _).filterMap _) order order' _

/-- **The report does not depend on the order of the lines**, nor on that of the map. -/
theorem verifyInner_perm {E : Type} {audit audit' calls calls' : LogFile}
    (ha : audit.SameLines audit') (hc : calls.SameLines calls') (hd : calls.DistinctCalls readers)
    (order order' : IterationOrder (String × ExternalPair F))
    (db : Option (Except E (List CallRow))) :
    verifyInner readers order audit calls db = verifyInner readers order' audit' calls' db := by
  have hcalls : ∀ audit, verifyInner readers order audit calls db =
      verifyInner readers order audit calls' db := by
    intro audit
    cases hc with
    | refl => rfl
    | text h =>
      unfold verifyInner
      simp only [parseInternalCalls_perm h (hd _ rfl)]
  rw [hcalls]
  unfold verifyInner
  cases ha with
  | refl =>
    cases audit with
    | missing => rfl
    | unreadable => rfl
    | text lines => simp only [auditLines_perm (.refl lines) order order']
  | text h => simp only [auditLines_perm h order order']

/-- **The audit matches as many calls as it can, counts every call once, and reports the same for
the lines of the logs in any order.** -/
theorem audit_matching {E : Type} (readers : Readers F) (external : List ExternalCall)
    (internal : List InternalCall) (report : VerifyReport) :
    (∃ matched mismatched restExternal restInternal,
      matchCalls (sortExternal external) (sortInternal internal) report =
        { report with
          matchCount := report.matchCount + matched
          bodyMismatchCount := report.bodyMismatchCount + mismatched
          unmatchedExternalCount := report.unmatchedExternalCount + restExternal
          unmatchedInternalCount := report.unmatchedInternalCount + restInternal } ∧
      IsGreatest {k | ∃ ps, Matching sameCall external internal ps ∧ ps.length = k} matched ∧
      matched + mismatched + restExternal = external.length ∧
      matched + mismatched + restInternal = internal.length) ∧
    ∀ (audit audit' calls calls' : LogFile) (order order' : IterationOrder (String × ExternalPair F))
      (db : Option (Except E (List CallRow))), audit.SameLines audit' → calls.SameLines calls' →
      calls.DistinctCalls readers →
      verifyInner readers order audit calls db = verifyInner readers order' audit' calls' db :=
  ⟨matchCalls_max external internal report, fun _ _ _ _ order order' db ha hc hd =>
    verifyInner_perm ha hc hd order order' db⟩

end

/-! ## two lines in either order -/

/-- the lines of one call in both logs -/
def oneCall : Readers Unit where
  crcValid _ := true
  record line :=
    if line = "request" ∨ line = "response" then some ⟨(), line, "a", "hash"⟩ else none
  event line := if line = "call" then some ⟨"c", "minimax", some "hash", false, 0⟩ else none
  floorI64 _ := 0

theorem audit_matching_reversed :
    verifyInner (E := Empty) oneCall ⟨id, fun l => .refl l⟩ (.text ["response", "request"])
      (.text ["call", ""]) none = .ok { VerifyReport.empty with matchCount := 1 } := by
  have h := (audit_matching (E := Empty) oneCall [] [] .empty).2 (.text ["response", "request"])
    (.text ["request", "response"]) (.text ["call", ""]) (.text ["", "call"])
    ⟨id, fun l => .refl l⟩ ⟨id, fun l => .refl l⟩ none (.text (.swap _ _ _)) (.text (.swap _ _ _))
    (fun lines hlines => by cases hlines; exact List.nodup_singleton "c")
  rw [h]
  rfl

end Moagan.Audit
