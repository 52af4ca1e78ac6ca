import Moagan.Audit.LineOrder
import Moagan.Audit.ProxyLog
import Moagan.Audit.ProxyPhases

/-!
# The cross-check of a log of the proxy (`src/audit/proxy.rs`, `src/audit/verify.rs`)

* `lookup_pairsOf`   the pair of an id is what its records make
* `outcomes_log`     the pairs of a log are the connections that have written to it
* `proxy_log`        nothing but pairs, and the requests that have no answer yet
* `proxy_stopped`    no request is left without an answer when the proxy stops
-/

namespace Moagan.Audit.Proxy

open AnyOrder Runs

section
variable {F : Type}

/-- what the cross-check reads of a record -/
def AuditRecord.read (r : AuditRecord F) : Audit.AuditRecord F :=
  ⟨r.ts, r.event, r.id, r.bodySha256⟩

/-- the pair that the records of an id make -/
def pairOf : List (Audit.AuditRecord F) → Option (ExternalPair F)
  | [] => none
  | r :: records => some ((r :: records).foldl ExternalPair.add .new)

theorem lookup_pairsOf (records : List (Audit.AuditRecord F)) (id : String) :
    (pairsOf records).lookup id = pairOf (records.filter (·.id = id)) := by
  have key : ∀ (records : List (Audit.AuditRecord F)) (pairs : Pairs F),
      (records.foldl addRecord pairs).lookup id =
        if records.filter (·.id = id) = [] then pairs.lookup id
        else some ((records.filter (·.id = id)).foldl ExternalPair.add
          ((pairs.lookup id).getD .new)) := by
    intro records
    induction records with
    | nil => exact fun _ => rfl
    | cons r records ih =>
      intro pairs
      rw [List.foldl_cons, ih, lookup_addRecord]
      by_cases hid : id = r.id
      · rw [if_pos hid, List.filter_cons_of_pos (by simpa using hid.symm),
          if_neg (List.cons_ne_nil _ _), List.foldl_cons]
        split
        · rename_i hnil
          rw [hnil]
          rfl
        · rfl
      · rw [if_neg hid, List.filter_cons_of_neg (by simpa using fun h => hid h.symm)]
  unfold pairsOf
  rw [key]
  cases records.filter (·.id = id) with
  | nil => rfl
  | cons r records => rfl

end

section
variable {Url F R : Type} {env : Env Url} {cfg : ProxyConfig R} {readers : Readers F}
  {s : State F R}

/-- the records of a connection, by what it has written -/
theorem connOk_written {c : Conn F R} {x : Exchange F R} (h : ConnOk env cfg c)
    (hx : c.exchange = some x) : ExchangeOk env cfg x ∧ (c.written = [] ∨ c.written = [x.request] ∨
      ∃ t, c.written = [x.request, t] ∧ IsTerminal env cfg x t) := by
  have hhas : ∀ {records : Exchange F R → List (AuditRecord F)}, Has env cfg c records →
      ExchangeOk env cfg x ∧ c.written = records x := by
    intro records ⟨y, hy, hok, hw⟩
    obtain rfl := Option.some.inj (hx.symm.trans hy)
    exact ⟨hok, hw⟩
  have hnone : ∀ {p : Prop}, c.exchange = none → p := by
    intro p hn
    rw [hx] at hn
    cases hn
  have hended : Ended env cfg c → ExchangeOk env cfg x ∧
      ∃ t, c.written = [x.request, t] ∧ IsTerminal env cfg x t := by
    rintro (⟨hn, -⟩ | ⟨y, t, hy, hok, hw, ht⟩)
    · exact hnone hn
    · obtain rfl := Option.some.inj (hx.symm.trans hy)
      exact ⟨hok, t, hw, ht⟩
  unfold ConnOk at h
  split at h
  · exact hnone h.1
  · exact hnone h.1.1
  · exact ⟨(hhas h).1, .inl (hhas h).2⟩
  · exact ⟨(hhas h).1, .inr (.inl (hhas h).2)⟩
  · exact ⟨(hhas h).1, .inr (.inl (hhas h).2)⟩
  · exact ⟨(hhas h).1, .inr (.inl (hhas h).2)⟩
  · obtain ⟨y, hy, hok, hw, -, -⟩ := h
    obtain rfl := Option.some.inj (hx.symm.trans hy)
    exact ⟨hok, .inr (.inl hw)⟩
  · exact ⟨(hended h).1, .inr (.inr (hended h).2)⟩
  · obtain h | h | h := h
    · exact ⟨(hended h).1, .inr (.inr (hended h).2)⟩
    · exact ⟨(hhas h).1, .inl (hhas h).2⟩
    · exact ⟨(hhas h).1, .inr (.inl (hhas h).2)⟩

/-- a request of the log without an answer -/
def Conn.isPending [DecidableEq R] (path : LogPath R) (c : Conn F R) : Bool :=
  match c.exchange with
  | some x => x.logPath = path && c.written.length = 1
  | none => false

variable (readers) in
/-- a request of the log with its answer -/
def Conn.call [DecidableEq R] (path : LogPath R) (c : Conn F R) : Option ExternalCall :=
  match c.exchange with
  | some x =>
    if x.logPath = path ∧ 1 < c.written.length then
      some ⟨x.id, x.request.bodySha256, readers.floorI64 x.request.ts⟩
    else none
  | none => none

variable (readers) in
/-- what a connection counts as in the cross-check of a log -/
def Conn.outcome [DecidableEq R] (path : LogPath R) (c : Conn F R) : Option (String × Outcome) :=
  match c.exchange with
  | some x =>
    if x.logPath = path then
      match c.written with
      | [] => none
      | [_] => some (x.id, .orphanRequest)
      | _ => some (x.id, .call x.request.bodySha256 (readers.floorI64 x.request.ts))
    else none
  | none => none

/-- the pair of the records of a connection -/
theorem pairOf_written [DecidableEq R] (hsha : ∀ bytes, env.sha256Hex bytes ≠ "") {c : Conn F R}
    {x : Exchange F R} (h : ConnOk env cfg c) (hx : c.exchange = some x) :
    (pairOf (c.written.map AuditRecord.read)).map (fun p => (x.id, p.outcome readers)) =
      c.outcome readers x.logPath := by
  obtain ⟨hok, hwritten⟩ := connOk_written h hx
  obtain ⟨ts, hrequest⟩ := hok.request
  have hne := hsha x.parsed.body
  unfold Conn.outcome
  rw [hx]
  dsimp only
  rw [if_pos rfl]
  obtain hw | hw | ⟨t, hw, ht⟩ := hwritten
  · rw [hw]
    rfl
  · rw [hw, hrequest]
    rfl
  · rw [hw, hrequest]
    obtain ⟨_, _, _, rfl⟩ | ⟨_, _, _, _, _, rfl⟩ := ht
    · simp [pairOf, AuditRecord.read, ExternalPair.add, ExternalPair.outcome, requestRecord,
        errorRecord, ExternalPair.new, hne]
    · simp [pairOf, AuditRecord.read, ExternalPair.add, ExternalPair.outcome, requestRecord,
        responseRecord, ExternalPair.new, hne]

theorem isClosed_iff {c : Conn F R} : c.isClosed = true ↔ c.phase = .closed := by
  unfold Conn.isClosed
  cases c.phase <;> simp

theorem ended_length {c : Conn F R} (h : Ended env cfg c) : c.written.length ≠ 1 := by
  obtain ⟨-, hw⟩ | ⟨x, t, -, -, hw, -⟩ := h
  · rw [hw]
    exact Nat.zero_ne_one
  · rw [hw]
    show 2 ≠ 1
    omega

end

section
variable {Url F R : Type} [LinearOrder R] {env : Env Url} {cfg : ProxyConfig R}
  {readers : Readers F} {s : State F R}

theorem outcome_some {path : LogPath R} {c : Conn F R} {e : String × Outcome}
    (h : c.outcome readers path = some e) :
    ∃ x, c.exchange = some x ∧ x.logPath = path ∧ e.1 = x.id := by
  unfold Conn.outcome at h
  cases hx : c.exchange with
  | none =>
    rw [hx] at h
    cases h
  | some x =>
    rw [hx] at h
    dsimp only at h
    split at h
    · rename_i hpath
      refine ⟨x, rfl, hpath, ?_⟩
      split at h
      · cases h
      · exact (Option.some.inj h) ▸ rfl
      · exact (Option.some.inj h) ▸ rfl
    · cases h

/-- the ids of a log and what they count as are those of the connections -/
theorem mem_outcomes_log (hi : Inv env cfg s) (hsha : ∀ bytes, env.sha256Hex bytes ≠ "")
    (order : IterationOrder (String × ExternalPair F)) (path : LogPath R) (e : String × Outcome) :
    e ∈ outcomes readers order ((s.logs path).map AuditRecord.read) ↔
      e ∈ s.conns.filterMap (Conn.outcome readers path) := by
  obtain ⟨id, o⟩ := e
  have hfilter : ((s.logs path).map AuditRecord.read).filter (·.id = id) =
      ((s.logs path).filter (·.id = id)).map AuditRecord.read := by
    rw [List.filter_map]
    rfl
  rw [mem_outcomes, lookup_pairsOf, hfilter, List.mem_filterMap]
  constructor
  · intro ⟨p, hp, ho⟩
    obtain ⟨r, hr⟩ : ∃ r, r ∈ (s.logs path).filter (·.id = id) := by
      cases hl : (s.logs path).filter (·.id = id) with
      | nil =>
        rw [hl] at hp
        cases hp
      | cons r l => exact ⟨r, List.mem_cons_self⟩
    obtain ⟨hmem, hid⟩ := List.mem_filter.mp hr
    obtain ⟨n, c, x, hx, rfl, hrid⟩ := hi.known path r hmem
    obtain rfl : id = x.id := (of_decide_eq_true hid).symm.trans hrid
    refine ⟨c, List.mem_of_getElem? hx.1, ?_⟩
    rw [hi.own n c x hx] at hp
    rw [← pairOf_written hsha (hi.conns n c hx.1) hx.2, hp, Option.map_some, ho]
  · intro ⟨c, hc, hout⟩
    obtain ⟨n, hn⟩ := List.mem_iff_getElem?.mp hc
    obtain ⟨x, hx, rfl, hid⟩ := outcome_some hout
    obtain rfl : id = x.id := hid
    rw [hi.own n c x ⟨hn, hx⟩]
    rw [← pairOf_written hsha (hi.conns n c hn) hx] at hout
    obtain ⟨p, hp, heq⟩ := Option.map_eq_some_iff.mp hout
    exact ⟨p, hp, (Prod.mk.inj heq).2⟩

theorem outcomes_log (hi : Inv env cfg s) (hsha : ∀ bytes, env.sha256Hex bytes ≠ "")
    (order : IterationOrder (String × ExternalPair F)) (path : LogPath R) :
    (outcomes readers order ((s.logs path).map AuditRecord.read)).Perm
      (s.conns.filterMap (Conn.outcome readers path)) := by
  have hnodup : (s.conns.filterMap (Conn.outcome readers path)).Nodup := by
    refine List.pairwise_filterMap.mpr (List.pairwise_iff_getElem.mpr ?_)
    intro i j hilt hjlt hij e he e' he' heq
    subst heq
    obtain ⟨x, hx, -, hid⟩ := outcome_some he
    obtain ⟨y, hy, -, hid'⟩ := outcome_some he'
    have := hi.ids i j _ _ x y ⟨List.getElem?_eq_getElem hilt, hx⟩
      ⟨List.getElem?_eq_getElem hjlt, hy⟩ (hid.symm.trans hid')
    omega
  exact (List.perm_ext_iff_of_nodup (outcomes_keys order _).of_map hnodup).mpr
    (mem_outcomes_log hi hsha order path)

/-! ## the counts -/

/-- the cross-check, as the count and the calls of the pairs -/
theorem pairExternalRecords_outcomes (order : IterationOrder (String × ExternalPair F))
    (records : List (Audit.AuditRecord F)) (report : VerifyReport) :
    pairExternalRecords readers order records report =
      ((outcomes readers order records).foldl (fun r e => e.2.count r) report,
        sortExternal ((outcomes readers order records).flatMap fun e => e.2.calls e.1)) := by
  have hfold := foldl_collect (fun r (e : String × ExternalPair F) => (e.2.outcome readers).count r)
    (fun e => (e.2.outcome readers).calls e.1) addPair_eq (pairEntries order records) (report, [])
  unfold pairExternalRecords outcomes
  rw [hfold, List.foldl_map, List.flatMap_map]
  rfl

variable (readers) in
theorem outcome_cases (path : LogPath R) (c : Conn F R) :
    (c.outcome readers path = none ∧ c.isPending path = false ∧ c.call readers path = none) ∨
      (∃ id, c.outcome readers path = some (id, .orphanRequest) ∧ c.isPending path = true ∧
        c.call readers path = none) ∨
      ∃ id bodySha256 startedUnix,
        c.outcome readers path = some (id, .call bodySha256 startedUnix) ∧
          c.isPending path = false ∧ c.call readers path = some ⟨id, bodySha256, startedUnix⟩ := by
  obtain ⟨phase, exchange, written⟩ := c
  unfold Conn.outcome Conn.isPending Conn.call
  cases exchange with
  | none => exact .inl ⟨rfl, rfl, rfl⟩
  | some x =>
    by_cases hpath : x.logPath = path
    · simp only [hpath, if_true, decide_true, Bool.true_and, true_and]
      match written with
      | [] => exact .inl ⟨rfl, rfl, rfl⟩
      | [_] => exact .inr (.inl ⟨x.id, rfl, rfl, rfl⟩)
      | _ :: _ :: written =>
        refine .inr (.inr ⟨x.id, _, _, rfl, ?_, ?_⟩)
        · simp
        · simp
    · simp only [hpath, if_false, decide_false, Bool.false_and, false_and]
      exact .inl ⟨trivial, trivial, trivial⟩

theorem foldl_count (path : LogPath R) (conns : List (Conn F R)) (report : VerifyReport) :
    (conns.filterMap (Conn.outcome readers path)).foldl (fun r e => e.2.count r) report =
      { report with
        orphanRequestCount := report.orphanRequestCount + conns.countP (Conn.isPending path) } := by
  induction conns generalizing report with
  | nil => rfl
  | cons c conns ih =>
    obtain ⟨hout, hpending, -⟩ | ⟨id, hout, hpending, -⟩ | ⟨id, sha, started, hout, hpending, -⟩ :=
      outcome_cases readers path c
    · rw [List.filterMap_cons_none hout, ih, List.countP_cons_of_neg (by simp [hpending])]
    · rw [List.filterMap_cons_some hout, List.foldl_cons, ih,
        List.countP_cons_of_pos (by simp [hpending])]
      show ({ report with orphanRequestCount := report.orphanRequestCount + 1 + _ } :
        VerifyReport) = _
      rw [Nat.add_assoc, Nat.add_comm 1]
    · rw [List.filterMap_cons_some hout, List.foldl_cons, ih,
        List.countP_cons_of_neg (by simp [hpending])]
      rfl

theorem flatMap_calls (path : LogPath R) (conns : List (Conn F R)) :
    ((conns.filterMap (Conn.outcome readers path)).flatMap fun e => e.2.calls e.1) =
      conns.filterMap (Conn.call readers path) := by
  induction conns with
  | nil => rfl
  | cons c conns ih =>
    obtain ⟨hout, -, hcall⟩ | ⟨id, hout, -, hcall⟩ | ⟨id, sha, started, hout, -, hcall⟩ :=
      outcome_cases readers path c
    · rw [List.filterMap_cons_none hout, List.filterMap_cons_none hcall, ih]
    · rw [List.filterMap_cons_some hout, List.filterMap_cons_none hcall, List.flatMap_cons, ih]
      rfl
    · rw [List.filterMap_cons_some hout, List.filterMap_cons_some hcall, List.flatMap_cons, ih]
      rfl

theorem pairExternalRecords_log (hi : Inv env cfg s) (hsha : ∀ bytes, env.sha256Hex bytes ≠ "")
    (order : IterationOrder (String × ExternalPair F)) (path : LogPath R) (report : VerifyReport) :
    pairExternalRecords readers order ((s.logs path).map AuditRecord.read) report =
      ({ report with
          orphanRequestCount :=
            report.orphanRequestCount + s.conns.countP (Conn.isPending path) },
        sortExternal (s.conns.filterMap (Conn.call readers path))) := by
  have hperm : (outcomes readers order ((s.logs path).map AuditRecord.read)).Perm _ :=
    outcomes_log hi hsha order path
  have hcalls := hperm.flatMap_right fun e => e.2.calls e.1
  have hids := (calls_ids (outcomes readers order ((s.logs path).map AuditRecord.read))).nodup
    (outcomes_keys order _)
  rw [pairExternalRecords_outcomes, hperm.foldl_eq' (fun a _ b _ r => count_swap r a.2 b.2) report,
    foldl_count, ← flatMap_calls]
  refine Prod.ext rfl (sort_perm ExternalCall.key hcalls fun a ha b hb hab => ?_)
  exact List.inj_on_of_nodup_map hids ha hb (Prod.mk.inj (toLex.injective hab)).2

/-! ## runs -/

/-- no task is aborted, no process dies and no write fails -/
def Event.isClean : Event F R → Bool
  | .conn _ e => e.isClean
  | .crash => false
  | _ => true

/-- a connection that is closed has no request without an answer, and behind the end of the proxy
all are closed -/
structure Settled (s : State F R) : Prop where
  written : ∀ c ∈ s.conns, c.isClosed = true → c.written.length ≠ 1
  stopped : s.serve = .stopped → ∀ c ∈ s.conns, c.isClosed = true

theorem advance_of_closed {shutdown aborting : Bool} {rs : List R} {c : Conn F R}
    (hc : c.isClosed = true) (e : ConnEvent F) :
    advance env cfg shutdown aborting rs c e = none := by
  obtain ⟨phase, exchange, written⟩ := c
  obtain rfl : phase = .closed := isClosed_iff.mp hc
  cases e <;> simp [advance, Phase.waits]

/-- what is closed without force has no request that waits for its answer -/
theorem advance_closes {shutdown aborting : Bool} {rs : List R} {c c' : Conn F R}
    {e : ConnEvent F} {effect : Effect F R} (hclean : e.isClean = true) (hok : ConnOk env cfg c)
    (h : advance env cfg shutdown aborting rs c e = some (c', effect))
    (hclosed : c'.isClosed = true) : c'.written.length ≠ 1 := by
  have hphase : c'.phase = .closed := isClosed_iff.mp hclosed
  by_cases hbusy : c.phase.isBusy = true
  · have hnot : e.isClean = false := (advance_moved h).closes hphase hbusy
    rw [hnot] at hclean
    cases hclean
  · have hended : Ended env cfg c := by
      obtain ⟨phase, exchange, written⟩ := c
      cases phase with
      | reading => exact .inl hok
      | resolving parsed => exact .inl hok.1
      | replying => exact hok
      | closed =>
        rw [advance_of_closed rfl] at h
        cases h
      | _ => exact absurd rfl hbusy
    have ha := advance_spec hok h
    cases hlog : effect.log with
    | none =>
      rw [ha.silent hlog]
      exact ended_length hended
    | some pr =>
      obtain ⟨hwritten, -, x, hx, -⟩ := ha.log pr.1 pr.2 hlog
      obtain ⟨hnone, -⟩ | ⟨y, t, -, -, hw, -⟩ := hended
      · rw [hnone] at hx
        cases hx
      · rw [hwritten, hw]
        show 3 ≠ 1
        omega

theorem step_settled {s s' : State F R} {e : Event F R} (hi : Inv env cfg s) (hs : Settled s)
    (hclean : e.isClean = true) (h : step env cfg s e = some s') : Settled s' := by
  cases e with
  | crash => cases hclean
  | newRun run =>
    obtain rfl := Option.some.inj h
    exact ⟨hs.written, hs.stopped⟩
  | cancel =>
    obtain rfl := Option.some.inj h
    exact ⟨hs.written, hs.stopped⟩
  | accept =>
    simp only [step] at h
    split at h
    · rename_i hserve
      obtain rfl := Option.some.inj h
      refine ⟨fun c hc hclosed => ?_, fun hstop => ?_⟩
      · obtain hc | hc := List.mem_append.mp hc
        · exact hs.written c hc hclosed
        · obtain rfl := List.mem_singleton.mp hc
          cases hclosed
      · rw [hserve] at hstop
        cases hstop
    · cases h
  | stop =>
    simp only [step] at h
    split at h
    · rename_i hserve
      obtain rfl := Option.some.inj h
      exact ⟨hs.written, fun _ => List.all_eq_true.mp hserve.2⟩
    · cases h
  | conn n e =>
    obtain ⟨c, c', effect, hc, ha, rfl⟩ := step_conn h
    have hmem : c ∈ s.conns := List.mem_of_getElem? hc
    refine ⟨fun d hd hclosed => ?_, fun hstop => ?_⟩
    · obtain hd | rfl := List.mem_or_eq_of_mem_set hd
      · exact hs.written d hd hclosed
      · exact advance_closes hclean (hi.conns n c hc) ha hclosed
    · rw [advance_of_closed (hs.stopped hstop c hmem)] at ha
      cases ha
  | _ =>
    simp only [step] at h
    split at h
    · obtain rfl := Option.some.inj h
      refine ⟨hs.written, fun hstop => ?_⟩
      cases hstop
    · cases h

/-- **A proxy that stops leaves no request behind.**  Where no task is aborted, no process dies and
no write fails, the cross-check of a log finds nothing but calls when the proxy has stopped, even
though a part of them was still on its way when it was told to. -/
theorem proxy_stopped {runs : List R} {events : List (Event F R)}
    (hsha : ∀ bytes, env.sha256Hex bytes ≠ "")
    (hclean : Along (step env cfg) (fun s e => Fresh s e ∧ e.isClean = true) (State.init runs)
      events)
    (h : run (step env cfg) (State.init runs) events = some s) (hstop : s.serve = .stopped)
    (order : IterationOrder (String × ExternalPair F)) (path : LogPath R) (report : VerifyReport) :
    pairExternalRecords readers order ((s.logs path).map AuditRecord.read) report =
      (report, sortExternal (s.conns.filterMap (Conn.call readers path))) := by
  have hinit : Settled (State.init runs : State F R) := by
    refine ⟨fun c hc => ?_, fun hstart => ?_⟩
    · cases hc
    · cases hstart
  have hinv : Inv env cfg s ∧ Settled s :=
    run_inv (I := fun s => Inv env cfg s ∧ Settled s)
      (fun _ _ _ hi hg hs => ⟨step_inv hi.1 hg.1 hs, step_settled hi.1 hi.2 hg.2 hs⟩) events
      _ _ ⟨inv_init env cfg runs, hinit⟩ hclean h
  have hpending : s.conns.countP (Conn.isPending path) = 0 := by
    refine List.countP_eq_zero.mpr fun c hc hp => ?_
    have hlen := hinv.2.written c hc (hinv.2.stopped hstop c hc)
    unfold Conn.isPending at hp
    split at hp
    · exact hlen (of_decide_eq_true (Bool.and_eq_true_iff.mp hp).2)
    · cases hp
  rw [pairExternalRecords_log hinv.1 hsha order path report, hpending]
  rfl

end

/-! ## two requests at the same time -/

def oneHost : Env (List Text × Option Text) where
  U := ⟨fun _ => false, fun _ => false⟩
  api := hostUrls
  serde := ⟨fun _ => none, fun _ => none, fun bytes => bytes.map fun b => Char.ofNat b.toNat⟩
  sha256Hex _ := "hash"
  isMethod text := text = "GET".toList
  isHeaderName _ := true
  isHeaderValue _ := true

def oneLog : ProxyConfig ℕ := ⟨"http://h/v1".toList, none, false, 10, some "log"⟩

def oneSecond : Readers Unit := ⟨fun _ => true, fun _ => none, fun _ => none, fun _ => 0⟩

def getModels : Reader :=
  .new (Pieces.push (Redact.utf8 "GET /models HTTP/1.1\r\n\r\n".toList) []) none

/-- both are recorded, and one of them is sent -/
def twoRequests : List (Event Unit ℕ) :=
  [.accept, .accept, .conn 0 (.received getModels), .conn 1 (.received getModels),
    .conn 1 (.resolve true false "b" ()), .conn 0 (.resolve true false "a" ()),
    .conn 0 (.write .written), .conn 1 (.write .written), .conn 1 .send]

/-- one is refused when the proxy is told to stop, and the other has its answer -/
def thenStop : List (Event Unit ℕ) :=
  [.cancel, .drain, .conn 0 (.refused () 1), .conn 1 (.head 200 []),
    .conn 1 (.body [[79, 75]] none () 5), .conn 1 (.write .written), .conn 1 .replied,
    .conn 0 (.write .written), .conn 0 .replied, .stop]

theorem proxy_stopped_refused : ∃ s : State Unit ℕ,
    run (step oneHost oneLog) (.init []) (twoRequests ++ thenStop) = some s ∧
      pairExternalRecords oneSecond ⟨id, fun l => .refl l⟩
        ((s.logs (.fixed "log")).map AuditRecord.read) .empty =
          (.empty, [⟨"a", "hash", 0⟩, ⟨"b", "hash", 0⟩]) := by
  have hfresh : Along (step oneHost oneLog) (fun s e => Fresh s e ∧ e.isClean = true) (.init [])
      (twoRequests ++ thenStop) :=
    along_of_check (g := fun s e => decide (Fresh s e ∧ e.isClean = true))
      (fun _ _ => of_decide_eq_true) _ _ (by decide +kernel)
  have hconns : (run (step oneHost oneLog) (.init []) (twoRequests ++ thenStop)).map (fun s =>
      (s.serve, s.conns.filterMap (Conn.call oneSecond (.fixed "log")))) =
        some (.stopped, [⟨"a", "hash", 0⟩, ⟨"b", "hash", 0⟩]) := by decide +kernel
  obtain ⟨s, hs, heq⟩ := Option.map_eq_some_iff.mp hconns
  obtain ⟨hstop, hcalls⟩ := Prod.mk.inj heq
  refine ⟨s, hs, ?_⟩
  rw [proxy_stopped (fun _ => show "hash" ≠ "" by decide) hfresh hs hstop, hcalls]
  decide

end Moagan.Audit.Proxy
