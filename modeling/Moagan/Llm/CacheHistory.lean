import Moagan.Lib.Runs
import Moagan.Llm.CacheCalls

/-!
# The history of the calls

* `History`        the stores in the order of their begin, in the order of their renames, and in the
                   order of their returns; and the answers of the lookups
* `Traced.step`    a step of the calls, with the history
* `Hit.Fresh`      an answer that is not the one of an earlier store
* `Timely`         a lookup writes back what the last store brought, and stores return in the order
                   of their renames
-/

set_option linter.unusedSectionVars false

namespace Moagan.Cache

open FileSystem Atomic

/-! ## the history -/

/-- an answer: the stores that had completed when the lookup began, and the response -/
structure Hit where
  before : List ℕ
  response : LlmResponse
deriving DecidableEq

/-- stores are numbered in the order of their begin -/
structure History (ι : Type) where
  stores : List LlmResponse
  /-- in the order in which their entries came to the path of the key -/
  published : List ℕ
  /-- in the order of their returns, also with an error -/
  returned : List ℕ
  /-- without an error -/
  completed : List ℕ
  /-- the store that a call makes -/
  storeOf : ι → ℕ
  /-- the stores that had completed when its lookup began -/
  before : ι → List ℕ
  hits : List Hit

structure Traced (ι : Type) where
  sys : Sys ι
  hist : History ι

section
variable {ι : Type} [DecidableEq ι] (K : Crates) (D : Codec) (c : CacheConfig) (key : String)

def History.init : History ι where
  stores := []
  published := []
  returned := []
  completed := []
  storeOf _ := 0
  before _ := []
  hits := []

def History.beginLookup (h : History ι) (i : ι) : History ι :=
  { h with before := Function.update h.before i h.completed }

def History.beginStore (h : History ι) (i : ι) (resp : LlmResponse) : History ι :=
  { h with
    stores := h.stores ++ [resp]
    storeOf := Function.update h.storeOf i h.stores.length }

def History.publish (h : History ι) (i : ι) : History ι :=
  { h with published := h.published ++ [h.storeOf i] }

def History.complete (h : History ι) (i : ι) : History ι :=
  { h with
    returned := h.returned ++ [h.storeOf i]
    completed := h.completed ++ [h.storeOf i] }

def History.fail (h : History ι) (i : ι) : History ι :=
  { h with returned := h.returned ++ [h.storeOf i] }

def History.answer (h : History ι) (i : ι) (r : LlmResponse) : History ι :=
  { h with hits := h.hits ++ [⟨h.before i, r⟩] }

/-- the next operation brings the entry of a store to its path -/
def Phase.publishes (path : Path) : Phase → Bool
  | .storing _ nonce (op :: _) => op = dataRename path nonce
  | _ => false

/-- the history behind an operation of call `i` -/
def History.recordNext (h : History ι) (i : ι) (ph : Phase) : Outcome → History ι
  | .going => if ph.publishes (pathFor c.root key) then h.publish i else h
  | .missed => h
  | .hit entry => h.answer i entry.response
  | .stored => h.complete i
  | .failed => if ph.isStore then h.fail i else h

def History.record (h : History ι) (s : Sys ι) (e : CallEvent ι) (o : Outcome) : History ι :=
  match e with
  | .lookup i => h.beginLookup i
  | .store i _ _ resp _ => if c.noStore then h else h.beginStore i resp
  | .next i _ => h.recordNext c key i (s.phase i) o

def Traced.step (t : Traced ι) (e : CallEvent ι) : Option (Traced ι) :=
  (t.sys.step K D c key e).map fun x => ⟨x.1, t.hist.record c key t.sys e x.2⟩

def Traced.init (fs : Disk) : Traced ι := ⟨Sys.init fs, .init⟩

/-! ## fresh answers -/

/-- **A fresh answer**: for every store that had completed, it is the response of that store, or of
one that began later, or of one that had not returned before it. -/
def Hit.Fresh (h : History ι) (x : Hit) : Prop :=
  ∀ s ∈ x.before, ∃ s', h.stores[s']? = some x.response ∧
    (s' = s ∨ s < s' ∨ ¬ List.Sublist [s', s] h.returned)

/-- the write that the next operation of a call begins -/
def Phase.Begins (fs : Disk) (x : Reply) (entry : CacheEntry) : Phase → Prop
  | .making e => entry = e
  | .reading => ∃ raw e, fs (pathFor c.root key) = some raw ∧ D.fromSlice raw = some e ∧
      entry = e.touch x.touched
  | _ => False

/-- the crate reads what it writes -/
def ReadsBack (t : Traced ι) : CallEvent ι → Prop
  | .next i x => ∀ entry, (t.sys.phase i).Begins D c key t.sys.disk x entry →
      D.fromSlice (D.toVec entry) = some entry
  | _ => True

/-- the condition on the next operation of call `i` -/
def Traced.timely (t : Traced ι) (i : ι) (x : Reply) : Phase → Prop
  | .idle | .checking => True
  | .reading | .making _ => ∀ j, (t.sys.phase j).nonce ≠ some x.nonce
  | .touching _ _ [] => True
  | .touching entry nonce (op :: _) => x.refused = false →
      op = dataRename (pathFor c.root key) nonce →
        ∀ s, t.hist.published.getLast? = some s → t.hist.stores[s]? = some entry.response
  | .storing _ _ _ | .listing | .walking _ _ | .evicting _ _ =>
    ∀ r, t.sys.next K D c key i x = some r → r.2 = .stored →
      ∀ a ∈ t.hist.returned, a < t.hist.storeOf i → a ∈ t.hist.published →
        List.Sublist [a, t.hist.storeOf i] t.hist.published

/-- **When the answers stay fresh.**  A write begins under a nonce that no write under way has; a
lookup writes back the response of the store whose entry came last; and a store does not complete
behind an older one whose entry came after its own. -/
def Timely (t : Traced ι) : CallEvent ι → Prop
  | .next i x => t.timely K D c key i x (t.sys.phase i)
  | _ => True

end

end Moagan.Cache
