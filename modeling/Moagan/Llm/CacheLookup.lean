import Moagan.Llm.CacheBound

/-!
# What a lookup answers for a file (`src/llm/cache/mod.rs`)

* `Served`              a miss, or the response that the file holds
* `Decodes`             the file is an entry that can be read and put back
* `lookup_entry`        the answer for an entry
* `lookup_served_iff`   a lookup answers exactly for these files
-/

namespace Moagan.Cache

open FileSystem Atomic

section
variable (K : Crates) (D : Codec) (c : CacheConfig) (a : Answers)

/-- `Ok` with a miss, or with the response that is in the file of the key -/
def Served (fs : Disk) (cacheKey : String) (r : Except CacheError (Option CacheEntry)) : Prop :=
  ∃ out, r = .ok out ∧ ∀ hit, out = some hit → ∃ raw stored,
    fs (pathFor c.root cacheKey) = some raw ∧ D.fromSlice raw = some stored ∧
      hit.response = stored.response

/-- the steps of the write that puts the entry back with its new time of use -/
def touchSteps (cacheKey : String) (e : CacheEntry) : List (Op Path UInt8) :=
  writer.steps K (pathFor c.root cacheKey) a.nonce (D.toVec (e.touch a.touched)) a.sealedAt

/-- the entry can be put back -/
def Touchable (cacheKey : String) (e : CacheEntry) : Prop :=
  (parent (pathFor c.root cacheKey)).isSome = true ∧
    ∀ n < (touchSteps K D c a cacheKey e).length, a.refused n = false

/-- the content of the file is an entry, and the system does not refuse what is done with it -/
def Decodes (cacheKey : String) (raw : Bytes) : Prop :=
  a.unreadable (pathFor c.root cacheKey) = false ∧
    ∃ e, D.fromSlice raw = some e ∧ (e.isFresh a.now = true → Touchable K D c a cacheKey e)

variable {K D c a}

theorem served_miss {fs : Disk} {cacheKey : String} : Served D c fs cacheKey (.ok none) :=
  ⟨none, rfl, fun _ h => nomatch h⟩

theorem not_served_error {fs : Disk} {cacheKey : String} {e : CacheError} :
    ¬ Served D c fs cacheKey (.error e) := fun ⟨_, h, _⟩ => nomatch h

/-- the answer for the entry of a file -/
theorem lookup_entry {fs : Disk} {cacheKey : String} {raw : Bytes} {e : CacheEntry}
    (hno : c.noStore = false) (hraw : fs (pathFor c.root cacheKey) = some raw)
    (hread : a.unreadable (pathFor c.root cacheKey) = false) (he : D.fromSlice raw = some e) :
    Served D c fs cacheKey (lookup K D c a fs cacheKey).2 ↔
      (e.isFresh a.now = true → Touchable K D c a cacheKey e) := by
  unfold lookup
  simp only [hno, hraw, hread, he, Bool.false_eq_true, if_false]
  by_cases hfresh : e.isFresh a.now = true
  · rw [if_pos hfresh, imp_iff_right hfresh, Touchable, touchSteps, ← write_returns _ _ fs]
    cases writer.write K a.refused fs (pathFor c.root cacheKey) a.nonce
        (D.toVec (e.touch a.touched)) a.sealedAt with
    | mk s r =>
      cases r with
      | ok m =>
        refine iff_of_true ⟨_, rfl, fun hit hhit => ⟨raw, e, hraw, he, ?_⟩⟩ ⟨m, rfl⟩
        rw [← Option.some.inj hhit]
        rfl
      | error err => exact iff_of_false not_served_error fun ⟨_, h⟩ => nomatch h
  · rw [if_neg hfresh]
    exact iff_of_true served_miss fun h => absurd h hfresh

variable (K D c a)

/-- **A lookup answers with the response or a miss iff the cache is off, there is no file, or the
file can be read, decoded and, when its entry is fresh, put back.** -/
theorem lookup_served_iff (fs : Disk) (cacheKey : String) :
    Served D c fs cacheKey (lookup K D c a fs cacheKey).2 ↔
      c.noStore = true ∨ fs (pathFor c.root cacheKey) = none ∨
        ∃ raw, fs (pathFor c.root cacheKey) = some raw ∧ Decodes K D c a cacheKey raw := by
  cases hno : c.noStore with
  | true =>
    rw [lookup, if_pos hno]
    exact iff_of_true served_miss (Or.inl rfl)
  | false =>
    cases hraw : fs (pathFor c.root cacheKey) with
    | none =>
      have hmiss : (lookup K D c a fs cacheKey).2 = .ok none := by
        unfold lookup
        simp only [hno, hraw, Bool.false_eq_true, if_false]
      rw [hmiss]
      exact iff_of_true served_miss (Or.inr (Or.inl rfl))
    | some raw =>
      simp only [Bool.false_eq_true, reduceCtorEq, false_or, Option.some.injEq, exists_eq_left']
      unfold Decodes
      cases hread : a.unreadable (pathFor c.root cacheKey) with
      | true =>
        have herr : (lookup K D c a fs cacheKey).2 = .error (.read (pathFor c.root cacheKey)) := by
          unfold lookup
          simp only [hno, hraw, hread, Bool.false_eq_true, if_false, if_true]
        rw [herr]
        exact iff_of_false not_served_error fun h => nomatch h.1
      | false =>
        rw [and_iff_right rfl]
        cases he : D.fromSlice raw with
        | none =>
          have herr : (lookup K D c a fs cacheKey).2
              = .error (.decode (pathFor c.root cacheKey)) := by
            unfold lookup
            simp only [hno, hraw, hread, he, Bool.false_eq_true, if_false]
          rw [herr]
          exact iff_of_false not_served_error fun ⟨_, h, _⟩ => nomatch h
        | some e =>
          rw [lookup_entry hno hraw hread he]
          simp only [Option.some.injEq, exists_eq_left']

end

/-- the file of a write that was cut off behind its first byte -/
def cutOff : Disk := fun p => if p = pathFor "cache" sampleKey then some [123] else none

/-- a file that is cut off is an error, though the system refuses nothing -/
theorem lookup_cut_off :
    ¬ ∀ (K : Crates) (D : Codec) (c : CacheConfig) (a : Answers) (fs : Disk) (cacheKey : String),
      (∀ p, a.unreadable p = false) → (∀ n, a.refused n = false) →
      (parent (pathFor c.root cacheKey)).isSome = true →
        Served D c fs cacheKey (lookup K D c a fs cacheKey).2 := by
  intro hall
  have hparent : (parent (pathFor (cappedAt 374).root sampleKey)).isSome = true := by
    decide +kernel
  have hserved := hall entryCrates entryCodec (cappedAt 374) sampleAnswers cutOff sampleKey
    (fun _ => rfl) (fun _ => rfl) hparent
  have hfile : cutOff (pathFor (cappedAt 374).root sampleKey) = some [123] := if_pos rfl
  have hdecode : entryCodec.fromSlice [123] = none := by
    show (if [123] = jsonEntry sampleEntry then some sampleEntry else none) = none
    apply if_neg
    intro h
    have hlen := congrArg List.length h
    rw [sample_entry_bytes] at hlen
    exact absurd hlen (by decide)
  rw [lookup_served_iff, hfile] at hserved
  obtain h | h | ⟨raw, hraw, -, e, he, -⟩ := hserved
  · cases h
  · cases h
  · rw [← Option.some.inj hraw, hdecode] at he
    cases he

end Moagan.Cache
