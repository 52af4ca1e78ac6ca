import Moagan.Llm.CacheAlone

/-!
# Fresh answers from the cache

* `Recent`           an answer of a store whose entry came no earlier than those that had completed
* `Inv`              the entry at the path is the one of the store whose entry came last
* `Inv.write`        a step that the history does not see
* `Inv.publish`      an entry comes to the path
* `step_inv`         what a timely step keeps
* `lookup_fresh`     then no lookup answers with the response of an earlier store
* `stale_answer`     a lookup in the middle of which a store completes
-/

set_option linter.unusedSectionVars false

namespace Moagan.Cache

open FileSystem Atomic

section
variable {ι : Type} [DecidableEq ι] (K : Crates) (D : Codec) (c : CacheConfig) (key : String)

/-! ## the invariant -/

/-- an answer with `r` is the one of a store whose entry came no earlier than any in `before` -/
def Recent (h : History ι) (before : List ℕ) (r : LlmResponse) : Prop :=
  ∀ s ∈ before, ∃ s', h.stores[s']? = some r ∧ (s' = s ∨ List.Sublist [s, s'] h.published)

/-- a write of `entry` under way, whose text will be read back -/
def Writing (nonce : UInt64) (entry : CacheEntry) (rest : List (Op Path UInt8)) (fs : Disk) : Prop :=
  D.fromSlice (D.toVec entry) = some entry ∧
    ∃ now, Staged K writer (pathFor c.root key) nonce (D.toVec entry) now rest fs

/-- what holds of a call in its phase -/
def Ready (fs : Disk) (h : History ι) (i : ι) : Phase → Prop
  | .idle | .checking | .reading => True
  | .touching entry nonce rest =>
    Recent h (h.before i) entry.response ∧ Writing K D c key nonce entry rest fs
  | .making entry => h.stores[h.storeOf i]? = some entry.response ∧ h.storeOf i ∉ h.published
  | .storing entry nonce rest => h.stores[h.storeOf i]? = some entry.response ∧
    (h.storeOf i ∈ h.published ↔ dataRename (pathFor c.root key) nonce ∉ rest) ∧
    Writing K D c key nonce entry rest fs
  | .listing => h.storeOf i ∈ h.published
  | .walking _ es | .evicting _ es => h.storeOf i ∈ h.published ∧
    ∀ e ∈ es, isCacheFile e.path = true

/-- the store of call `i` is its own, and has not returned -/
def Mine (t : Traced ι) (i : ι) : Prop :=
  t.hist.storeOf i < t.hist.stores.length ∧ t.hist.storeOf i ∉ t.hist.returned ∧
    ∀ j, j ≠ i → (t.sys.phase j).isStore = true → t.hist.storeOf j ≠ t.hist.storeOf i

structure Inv (t : Traced ι) : Prop where
  ready : ∀ i, Ready K D c key t.sys.disk t.hist i (t.sys.phase i)
  mine : ∀ i, (t.sys.phase i).isStore = true → Mine t i
  /-- writes under way have different nonces -/
  nonces : ∀ i j n, j ≠ i → (t.sys.phase i).nonce = some n → (t.sys.phase j).nonce ≠ some n
  /-- the entry at the path has the response of the store whose entry came last -/
  content : ∀ s, t.hist.published.getLast? = some s → ∀ raw,
    t.sys.disk (pathFor c.root key) = some raw →
      ∃ e, D.fromSlice raw = some e ∧ t.hist.stores[s]? = some e.response
  once : t.hist.published.Nodup
  begun : ∀ s, s ∈ t.hist.published ∨ s ∈ t.hist.returned → s < t.hist.stores.length
  done : ∀ s ∈ t.hist.completed, s ∈ t.hist.published ∧ s ∈ t.hist.returned
  /-- a store does not complete behind an older one whose entry came after its own -/
  order : ∀ a b, List.Sublist [a, b] t.hist.returned → b ∈ t.hist.completed → a < b →
    a ∈ t.hist.published → List.Sublist [a, b] t.hist.published
  before : ∀ i, ∀ s ∈ t.hist.before i, s ∈ t.hist.completed
  hits : ∀ x ∈ t.hist.hits, (∀ s ∈ x.before, s ∈ t.hist.completed) ∧
    Recent t.hist x.before x.response

variable {K D c key}

theorem inv_init (fs : Disk) : Inv K D c key (Traced.init (ι := ι) fs) := by
  refine ⟨fun _ => trivial, nofun, nofun, nofun, List.nodup_nil, ?_, nofun, nofun, nofun, nofun⟩
  intro s h
  obtain h | h := h
  · cases h
  · cases h

/-! ## two stores in a list -/

theorem sublist_asymm {l : List ℕ} {a b : ℕ} (hl : l.Nodup) (h1 : List.Sublist [a, b] l)
    (h2 : List.Sublist [b, a] l) : False := by
  induction l with
  | nil => cases h1
  | cons x l ih =>
    obtain ⟨hx, hl⟩ := List.nodup_cons.mp hl
    cases h1 with
    | cons _ h1 =>
      cases h2 with
      | cons _ h2 => exact ih hl h1 h2
      | cons_cons _ h2 => exact hx (h1.subset (by simp))
    | cons_cons _ h1 =>
      cases h2 with
      | cons _ h2 => exact hx (h2.subset (by simp))
      | cons_cons _ h2 => exact hx (List.singleton_sublist.mp h1)

/-- a pair behind an addition -/
theorem pair_concat {l : List ℕ} {a b x : ℕ} (h : List.Sublist [a, b] (l ++ [x])) :
    List.Sublist [a, b] l ∨ b = x ∧ a ∈ l := by
  have h := h.reverse
  rw [List.reverse_append] at h
  have h : List.Sublist [b, a] (x :: l.reverse) := h
  cases h with
  | cons _ h => exact Or.inl (List.reverse_sublist.mp h)
  | cons_cons _ h => exact Or.inr ⟨rfl, List.mem_reverse.mp (List.singleton_sublist.mp h)⟩

theorem pair_last {l : List ℕ} {a b : ℕ} (ha : a ∈ l) (hb : l.getLast? = some b) :
    b = a ∨ List.Sublist [a, b] l := by
  obtain ⟨l, rfl⟩ := List.getLast?_eq_some_iff.mp hb
  obtain ha | ha := List.mem_append.mp ha
  · exact Or.inr ((List.singleton_sublist.mpr ha).append (List.Sublist.refl [b]))
  · exact Or.inl (List.mem_singleton.mp ha).symm

/-! ## what the others see of a step -/

theorem get_of_initial {α : Type*} {l l' : List α} (h : l <+: l') {n : ℕ} {a : α} (hn : l[n]? = some a) :
    l'[n]? = some a := by
  obtain ⟨t, rfl⟩ := h
  rw [List.getElem?_append_left (List.getElem?_eq_some_iff.mp hn).1, hn]

theorem Recent.mono {h h' : History ι} {before : List ℕ} {r : LlmResponse} (hr : Recent h before r)
    (hs : h.stores <+: h'.stores) (hp : h.published <+: h'.published) : Recent h' before r := by
  intro s hm
  obtain ⟨s', hget, hor⟩ := hr s hm
  exact ⟨s', get_of_initial hs hget, hor.imp_right fun hsub => hsub.trans hp.sublist⟩

theorem Writing.frame {nonce : UInt64} {entry : CacheEntry} {rest : List (Op Path UInt8)}
    {fs fs' : Disk} (h : Writing K D c key nonce entry rest fs)
    (hfs : ∀ p, IsTmp (pathFor c.root key) nonce p → fs' p = fs p) :
    Writing K D c key nonce entry rest fs' := by
  obtain ⟨hcodec, now, hstaged⟩ := h
  exact ⟨hcodec, now, hstaged.frame hfs⟩

theorem Ready.mono {fs fs' : Disk} {h h' : History ι} {i : ι} {ph : Phase}
    (hr : Ready K D c key fs h i ph)
    (hfs : ∀ n, ph.nonce = some n → ∀ p, IsTmp (pathFor c.root key) n p → fs' p = fs p)
    (hs : h.stores <+: h'.stores) (hp : h.published <+: h'.published)
    (hb : h'.before i = h.before i) (ho : h'.storeOf i = h.storeOf i)
    (hnew : ph.isStore = true → h.storeOf i ∈ h'.published → h.storeOf i ∈ h.published) :
    Ready K D c key fs' h' i ph := by
  cases ph with
  | idle | checking | reading => trivial
  | touching entry nonce rest =>
    refine ⟨?_, hr.2.frame (hfs nonce rfl)⟩
    rw [hb]
    exact hr.1.mono hs hp
  | making entry =>
    show h'.stores[h'.storeOf i]? = _ ∧ h'.storeOf i ∉ h'.published
    rw [ho]
    exact ⟨get_of_initial hs hr.1, fun hm => hr.2 (hnew rfl hm)⟩
  | storing entry nonce rest =>
    show h'.stores[h'.storeOf i]? = _ ∧ (h'.storeOf i ∈ h'.published ↔ _) ∧ _
    rw [ho]
    refine ⟨get_of_initial hs hr.1, ?_, hr.2.2.frame (hfs nonce rfl)⟩
    rw [← hr.2.1]
    exact ⟨hnew rfl, fun hm => hp.subset hm⟩
  | listing =>
    show h'.storeOf i ∈ h'.published
    rw [ho]
    exact hp.subset hr
  | walking files es =>
    show h'.storeOf i ∈ h'.published ∧ _
    rw [ho]
    exact ⟨hp.subset hr.1, hr.2⟩
  | evicting current es =>
    show h'.storeOf i ∈ h'.published ∧ _
    rw [ho]
    exact ⟨hp.subset hr.1, hr.2⟩

theorem Mine.write {t : Traced ι} {i j : ι} (h : Mine t j) (fs : Disk) (ph : Phase)
    (hi : ph.isStore = true → i ≠ j → t.hist.storeOf i ≠ t.hist.storeOf j) :
    Mine ⟨t.sys.write i fs ph, t.hist⟩ j := by
  refine ⟨h.1, h.2.1, fun k hk hst => ?_⟩
  by_cases hki : k = i
  · subst hki
    have hst : ((t.sys.write k fs ph).phase k).isStore = true := hst
    rw [write_phase_self] at hst
    exact hi hst hk
  · have hst : ((t.sys.write i fs ph).phase k).isStore = true := hst
    rw [write_phase_of_ne _ hki] at hst
    exact h.2.2 k hk hst

theorem Inv.mine_write {t : Traced ι} (h : Inv K D c key t) {i : ι} {ph : Phase} (fs : Disk)
    (hmine : ph.isStore = true → Mine t i) (j : ι) (hst : ((t.sys.write i fs ph).phase j).isStore = true) :
    Mine ⟨t.sys.write i fs ph, t.hist⟩ j := by
  by_cases hj : j = i
  · subst hj
    rw [write_phase_self] at hst
    exact (hmine hst).write fs ph fun _ hne => absurd rfl hne
  · rw [write_phase_of_ne _ hj] at hst
    exact (h.mine j hst).write fs ph fun hph hne => ((hmine hph).2.2 j hj hst).symm

theorem Inv.nonces_write {t : Traced ι} (h : Inv K D c key t) {i : ι} {ph : Phase} (fs : Disk)
    (hnonce : ∀ n, ph.nonce = some n → ∀ j, j ≠ i → (t.sys.phase j).nonce ≠ some n) {j k : ι}
    {n : UInt64} (hjk : k ≠ j) (hn : ((t.sys.write i fs ph).phase j).nonce = some n) :
    ((t.sys.write i fs ph).phase k).nonce ≠ some n := by
  by_cases hj : j = i
  · subst hj
    rw [write_phase_self] at hn
    rw [write_phase_of_ne _ hjk]
    exact hnonce n hn k hjk
  · rw [write_phase_of_ne _ hj] at hn
    by_cases hk : k = i
    · subst hk
      rw [write_phase_self]
      exact fun hph => hnonce n hph j hj hn
    · rw [write_phase_of_ne _ hk]
      exact h.nonces j k n hjk hn

/-- **A step that the history does not see**: call `i` goes to `ph`, and the disk changes at no
temporary file of another write. -/
theorem Inv.write {t : Traced ι} (h : Inv K D c key t) {i : ι} {fs : Disk} {ph : Phase}
    (hfs : ∀ j, j ≠ i → ∀ n, (t.sys.phase j).nonce = some n →
      ∀ p, IsTmp (pathFor c.root key) n p → fs p = t.sys.disk p)
    (hcontent : ∀ s, t.hist.published.getLast? = some s → ∀ raw, fs (pathFor c.root key) = some raw →
      ∃ e, D.fromSlice raw = some e ∧ t.hist.stores[s]? = some e.response)
    (hnonce : ∀ n, ph.nonce = some n → ∀ j, j ≠ i → (t.sys.phase j).nonce ≠ some n)
    (hmine : ph.isStore = true → Mine t i) (hready : Ready K D c key fs t.hist i ph) :
    Inv K D c key ⟨t.sys.write i fs ph, t.hist⟩ := by
  refine ⟨fun j => ?_, h.mine_write fs hmine, fun j k n hjk hn => h.nonces_write fs hnonce hjk hn,
    hcontent, h.once, h.begun, h.done, h.order, h.before, h.hits⟩
  show Ready K D c key fs t.hist j ((t.sys.write i fs ph).phase j)
  by_cases hj : j = i
  · subst hj
    rw [write_phase_self]
    exact hready
  · rw [write_phase_of_ne _ hj]
    exact (h.ready j).mono (hfs j hj) (List.prefix_refl _) (List.prefix_refl _) rfl rfl
      fun _ hm => hm

/-- a step that changes no file -/
theorem Inv.goto {t : Traced ι} (h : Inv K D c key t) {i : ι} {ph : Phase}
    (hnonce : ∀ n, ph.nonce = some n → ∀ j, j ≠ i → (t.sys.phase j).nonce ≠ some n)
    (hmine : ph.isStore = true → Mine t i) (hready : Ready K D c key t.sys.disk t.hist i ph) :
    Inv K D c key ⟨t.sys.goto i ph, t.hist⟩ := by
  show Inv K D c key ⟨t.sys.write i t.sys.disk ph, t.hist⟩
  exact h.write (fun _ _ _ _ _ _ => rfl) h.content hnonce hmine hready

theorem Inv.idle {t : Traced ι} (h : Inv K D c key t) (i : ι) :
    Inv K D c key ⟨t.sys.goto i .idle, t.hist⟩ :=
  h.goto nofun nofun trivial

/-! ## what the history sees -/

/-- a lookup begins -/
theorem Inv.beginLookup {t : Traced ι} (h : Inv K D c key t) {i : ι} (hi : t.sys.phase i = .idle) :
    Inv K D c key ⟨t.sys, t.hist.beginLookup i⟩ := by
  refine ⟨fun j => ?_, h.mine, h.nonces, h.content, h.once, h.begun, h.done, h.order,
    fun j s hs => ?_, h.hits⟩
  · by_cases hj : j = i
    · rw [hj]
      show Ready K D c key t.sys.disk _ i (t.sys.phase i)
      rw [hi]
      trivial
    · exact (h.ready j).mono (fun _ _ _ _ => rfl) (List.prefix_refl _) (List.prefix_refl _)
        (Function.update_of_ne hj ..) rfl fun _ hm => hm
  · have hs : s ∈ Function.update t.hist.before i t.hist.completed j := hs
    by_cases hj : j = i
    · rw [hj, Function.update_self] at hs
      exact hs
    · rw [Function.update_of_ne hj] at hs
      exact h.before j s hs

/-- a store begins -/
theorem Inv.beginStore {t : Traced ι} (h : Inv K D c key t) {i : ι} (hi : t.sys.phase i = .idle)
    (resp : LlmResponse) : Inv K D c key ⟨t.sys, t.hist.beginStore i resp⟩ := by
  have hinit : t.hist.stores <+: t.hist.stores ++ [resp] := List.prefix_append _ _
  have hlen : (t.hist.stores ++ [resp]).length = t.hist.stores.length + 1 := by simp
  have hown : ∀ j, (t.sys.phase j).isStore = true →
      Function.update t.hist.storeOf i t.hist.stores.length j = t.hist.storeOf j := by
    intro j hst
    apply Function.update_of_ne
    intro hj
    rw [hj, hi] at hst
    cases hst
  refine ⟨fun j => ?_, fun j hst => ?_, h.nonces, fun s hs raw hraw => ?_, h.once, fun s hs => ?_,
    h.done, h.order, h.before,
    fun x hx => ⟨(h.hits x hx).1, (h.hits x hx).2.mono hinit (List.prefix_refl _)⟩⟩
  · by_cases hj : j = i
    · rw [hj]
      show Ready K D c key t.sys.disk _ i (t.sys.phase i)
      rw [hi]
      trivial
    · exact (h.ready j).mono (fun _ _ _ _ => rfl) hinit (List.prefix_refl _) rfl
        (Function.update_of_ne hj ..) fun _ hm => hm
  · obtain ⟨hlt, hret, hoth⟩ := h.mine j hst
    show Function.update t.hist.storeOf i t.hist.stores.length j < (t.hist.stores ++ [resp]).length ∧
      Function.update t.hist.storeOf i t.hist.stores.length j ∉ _ ∧ ∀ k, k ≠ j → _ →
        Function.update t.hist.storeOf i t.hist.stores.length k
          ≠ Function.update t.hist.storeOf i t.hist.stores.length j
    rw [hown j hst, hlen]
    refine ⟨by omega, hret, fun k hk hkst => ?_⟩
    rw [hown k hkst]
    exact hoth k hk hkst
  · obtain ⟨e, he, hget⟩ := h.content s hs raw hraw
    exact ⟨e, he, get_of_initial hinit hget⟩
  · have := h.begun s hs
    show s < (t.hist.stores ++ [resp]).length
    omega

/-- the new store is the call's own -/
theorem mine_beginStore {t : Traced ι} (h : Inv K D c key t) {i : ι} (resp : LlmResponse) :
    Mine ⟨t.sys, t.hist.beginStore i resp⟩ i := by
  have hself : Function.update t.hist.storeOf i t.hist.stores.length i = t.hist.stores.length :=
    Function.update_self ..
  refine ⟨?_, fun hm => ?_, fun j hj hst => ?_⟩
  · show Function.update t.hist.storeOf i t.hist.stores.length i < (t.hist.stores ++ [resp]).length
    rw [hself]
    simp
  · have hm : Function.update t.hist.storeOf i t.hist.stores.length i ∈ t.hist.returned := hm
    rw [hself] at hm
    exact absurd (h.begun _ (Or.inr hm)) (Nat.lt_irrefl _)
  · show Function.update t.hist.storeOf i t.hist.stores.length j
      ≠ Function.update t.hist.storeOf i t.hist.stores.length i
    rw [hself, Function.update_of_ne hj]
    exact Nat.ne_of_lt (h.mine j hst).1

/-- a lookup answers -/
theorem Inv.answer {t : Traced ι} (h : Inv K D c key t) {i : ι} {r : LlmResponse}
    (hr : Recent t.hist (t.hist.before i) r) : Inv K D c key ⟨t.sys, t.hist.answer i r⟩ := by
  refine ⟨fun j => ?_, h.mine, h.nonces, h.content, h.once, h.begun, h.done, h.order, h.before,
    fun x hx => ?_⟩
  · exact (h.ready j).mono (fun _ _ _ _ => rfl) (List.prefix_refl _) (List.prefix_refl _) rfl rfl
      fun _ hm => hm
  · obtain hx | hx := List.mem_append.mp hx
    · exact h.hits x hx
    · rw [List.mem_singleton.mp hx]
      exact ⟨h.before i, hr⟩

/-- the store of call `i`, which is no longer under way, has returned -/
theorem Mine.return {t : Traced ι} {i j : ι} (h : Mine t j) (hne : t.hist.storeOf j ≠ t.hist.storeOf i)
    {hist : History ι} (hstores : hist.stores = t.hist.stores) (hof : hist.storeOf = t.hist.storeOf)
    (hret : hist.returned = t.hist.returned ++ [t.hist.storeOf i]) : Mine ⟨t.sys, hist⟩ j := by
  refine ⟨?_, ?_, ?_⟩
  · show hist.storeOf j < hist.stores.length
    rw [hof, hstores]
    exact h.1
  · show hist.storeOf j ∉ hist.returned
    rw [hof, hret, List.mem_append, List.mem_singleton, not_or]
    exact ⟨h.2.1, hne⟩
  · show ∀ k, k ≠ j → _ → hist.storeOf k ≠ hist.storeOf j
    rw [hof]
    exact h.2.2

theorem Inv.mine_return {t : Traced ι} (h : Inv K D c key t) {i : ι} (hm : Mine t i)
    (hi : (t.sys.phase i).isStore = false) (hist : History ι)
    (hstores : hist.stores = t.hist.stores) (hof : hist.storeOf = t.hist.storeOf)
    (hret : hist.returned = t.hist.returned ++ [t.hist.storeOf i]) {j : ι}
    (hst : (t.sys.phase j).isStore = true) : Mine ⟨t.sys, hist⟩ j := by
  have hj : j ≠ i := by
    rintro rfl
    rw [hst] at hi
    cases hi
  exact (h.mine j hst).return (hm.2.2 j hj hst) hstores hof hret

theorem Inv.begun_return {t : Traced ι} (h : Inv K D c key t) {i : ι} (hm : Mine t i) {s : ℕ}
    (hs : s ∈ t.hist.published ∨ s ∈ t.hist.returned ++ [t.hist.storeOf i]) :
    s < t.hist.stores.length := by
  obtain hs | hs := hs
  · exact h.begun s (Or.inl hs)
  · obtain hs | hs := List.mem_append.mp hs
    · exact h.begun s (Or.inr hs)
    · exact List.mem_singleton.mp hs ▸ hm.1

/-- a store fails -/
theorem Inv.fail {t : Traced ι} (h : Inv K D c key t) {i : ι} (hm : Mine t i)
    (hi : (t.sys.phase i).isStore = false) : Inv K D c key ⟨t.sys, t.hist.fail i⟩ := by
  refine ⟨fun j => ?_, fun j hst => ?_, h.nonces, h.content, h.once, fun s hs => ?_, fun s hs => ?_,
    fun a b hab hb => ?_, h.before, h.hits⟩
  · exact (h.ready j).mono (fun _ _ _ _ => rfl) (List.prefix_refl _) (List.prefix_refl _) rfl rfl
      fun _ hm => hm
  · exact h.mine_return hm hi (t.hist.fail i) rfl rfl rfl hst
  · exact h.begun_return hm hs
  · exact ⟨(h.done s hs).1, List.mem_append_left _ (h.done s hs).2⟩
  · obtain hab | ⟨rfl, -⟩ := pair_concat hab
    · exact h.order a b hab hb
    · exact absurd (h.done _ hb).2 hm.2.1

/-- a store completes -/
theorem Inv.complete {t : Traced ι} (h : Inv K D c key t) {i : ι} (hm : Mine t i)
    (hi : (t.sys.phase i).isStore = false) (hpub : t.hist.storeOf i ∈ t.hist.published)
    (hlast : ∀ a ∈ t.hist.returned, a < t.hist.storeOf i → a ∈ t.hist.published →
      List.Sublist [a, t.hist.storeOf i] t.hist.published) :
    Inv K D c key ⟨t.sys, t.hist.complete i⟩ := by
  refine ⟨fun j => ?_, fun j hst => ?_, h.nonces, h.content, h.once, fun s hs => ?_, fun s hs => ?_,
    fun a b hab hb => ?_, fun j s hs => List.mem_append_left _ (h.before j s hs),
    fun x hx => ⟨fun s hs => List.mem_append_left _ ((h.hits x hx).1 s hs), (h.hits x hx).2⟩⟩
  · exact (h.ready j).mono (fun _ _ _ _ => rfl) (List.prefix_refl _) (List.prefix_refl _) rfl rfl
      fun _ hm => hm
  · exact h.mine_return hm hi (t.hist.complete i) rfl rfl rfl hst
  · exact h.begun_return hm hs
  · obtain hs | hs := List.mem_append.mp hs
    · exact ⟨(h.done s hs).1, List.mem_append_left _ (h.done s hs).2⟩
    · rw [List.mem_singleton.mp hs]
      exact ⟨hpub, List.mem_append_right _ (List.mem_singleton_self _)⟩
  · obtain hab | ⟨rfl, ha⟩ := pair_concat hab
    · obtain hb | hb := List.mem_append.mp hb
      · exact h.order a b hab hb
      · -- the store has not returned before
        rw [List.mem_singleton.mp hb] at hab
        exact absurd (hab.subset (by simp)) hm.2.1
    · exact hlast a ha

/-- the entry of the store comes to the path -/
theorem Inv.publish {t : Traced ι} (h : Inv K D c key t) {i : ι} {entry : CacheEntry} {nonce : UInt64}
    {rest : List (Op Path UInt8)} {fs : Disk}
    (hi : t.sys.phase i = .storing entry nonce (dataRename (pathFor c.root key) nonce :: rest))
    (ha : (dataRename (pathFor c.root key) nonce).apply t.sys.disk = some fs) :
    Inv K D c key ⟨t.sys.write i fs (.storing entry nonce rest), t.hist.publish i⟩ := by
  have hready := h.ready i
  rw [hi] at hready
  obtain ⟨hget, hpub, hcodec, now, hstaged⟩ := hready
  have hnew : t.hist.storeOf i ∉ t.hist.published := fun hm => hpub.mp hm List.mem_cons_self
  have hmine := h.mine i (by rw [hi]; rfl)
  have hinit : t.hist.published <+: t.hist.published ++ [t.hist.storeOf i] := List.prefix_append _ _
  have hnonce : ∀ n, (Phase.storing entry nonce rest).nonce = some n → ∀ j, j ≠ i → (t.sys.phase j).nonce ≠ some n :=
    fun n hn j hj => h.nonces i j n hj (by rw [hi]; exact hn)
  refine ⟨fun j => ?_, h.mine_write fs fun _ => hmine,
    fun j k n hjk hn => h.nonces_write fs hnonce hjk hn, fun s hs raw hraw => ?_, ?_, fun s hs => ?_,
    fun s hs => ?_, fun a b hab hb hlt ha' => ?_,
    h.before, fun x hx => ⟨(h.hits x hx).1, (h.hits x hx).2.mono (List.prefix_refl _) hinit⟩⟩
  · show Ready K D c key fs (t.hist.publish i) j ((t.sys.write i fs _).phase j)
    by_cases hj : j = i
    · rw [hj, write_phase_self]
      refine ⟨hget, ?_, hcodec, now, hstaged.step ha⟩
      exact iff_of_true (List.mem_append_right _ (List.mem_singleton_self _)) hstaged.dataRename_once
    · rw [write_phase_of_ne _ hj]
      refine (h.ready j).mono (fun n hn p hp => ?_) (List.prefix_refl _) hinit rfl rfl
        fun hst hm => ?_
      · exact steps_frame_tmp hstaged.mem ha (fun e => hnonce n (congrArg some e.symm) j hj hn) hp
      · obtain hm | hm := List.mem_append.mp hm
        · exact hm
        · exact absurd (List.mem_singleton.mp hm) (hmine.2.2 j hj hst)
  · -- the bytes at the path are those of the store
    have hlast : (t.hist.published ++ [t.hist.storeOf i]).getLast? = some s := hs
    rw [List.getLast?_concat] at hlast
    obtain rfl := Option.some.inj hlast
    obtain rfl := Option.some.inj ((hstaged.publish ha).symm.trans hraw)
    exact ⟨entry, hcodec, hget⟩
  · exact List.nodup_append.mpr ⟨h.once, by simp, fun a ha' b hb e =>
      hnew (List.mem_singleton.mp hb ▸ e ▸ ha')⟩
  · obtain hs | hs := hs
    · obtain hs | hs := List.mem_append.mp hs
      · exact h.begun s (Or.inl hs)
      · exact List.mem_singleton.mp hs ▸ hmine.1
    · exact h.begun s (Or.inr hs)
  · exact ⟨hinit.subset (h.done s hs).1, (h.done s hs).2⟩
  · -- a store that has returned is another one
    have ha' : a ∈ t.hist.published ++ [t.hist.storeOf i] := ha'
    have hret : a ∈ t.hist.returned := List.Sublist.subset hab (by simp)
    obtain ha' | ha' := List.mem_append.mp ha'
    · exact (h.order a b hab hb hlt ha').trans hinit.sublist
    · exact absurd (List.mem_singleton.mp ha' ▸ hret) hmine.2.1

/-! ## one step -/

/-- an operation of a write that brings nothing of a store to the path -/
theorem Inv.operate {t : Traced ι} (h : Inv K D c key t) {i : ι} {nonce : UInt64} {entry : CacheEntry}
    {op : Op Path UInt8} {rest : List (Op Path UInt8)} {fs : Disk} {ph : Phase}
    (hw : Writing K D c key nonce entry (op :: rest) t.sys.disk)
    (hi : (t.sys.phase i).nonce = some nonce) (hph : ph.nonce = some nonce)
    (ha : op.apply t.sys.disk = some fs)
    (hlast : op = dataRename (pathFor c.root key) nonce → ∀ s, t.hist.published.getLast? = some s →
      t.hist.stores[s]? = some entry.response)
    (hmine : ph.isStore = true → Mine t i) (hready : Ready K D c key fs t.hist i ph) :
    Inv K D c key ⟨t.sys.write i fs ph, t.hist⟩ := by
  obtain ⟨hcodec, now, hstaged⟩ := hw
  have hothers : ∀ j, j ≠ i → ∀ n, (t.sys.phase j).nonce = some n → n ≠ nonce :=
    fun j hj n hn e => h.nonces i j nonce hj hi (e ▸ hn)
  refine h.write (fun j hj n hn p hp => steps_frame_tmp hstaged.mem ha (hothers j hj n hn) hp)
    (fun s hs raw hraw => ?_) (fun n hn j hj hjn => ?_) hmine hready
  · by_cases hop : op = dataRename (pathFor c.root key) nonce
    · subst hop
      obtain rfl := Option.some.inj ((hstaged.publish ha).symm.trans hraw)
      exact ⟨entry, hcodec, hlast rfl s hs⟩
    · rw [steps_frame_dest hstaged.mem ha hop] at hraw
      exact h.content s hs raw hraw
  · exact hothers j hj n hjn (Option.some.inj (hn.symm.trans hph))

theorem Writing.step {nonce : UInt64} {entry : CacheEntry} {op : Op Path UInt8}
    {rest : List (Op Path UInt8)} {fs fs' : Disk} (h : Writing K D c key nonce entry (op :: rest) fs)
    (ha : op.apply fs = some fs') : Writing K D c key nonce entry rest fs' := by
  obtain ⟨hcodec, now, hstaged⟩ := h
  exact ⟨hcodec, now, hstaged.step ha⟩

/-- the eviction removes an entry -/
theorem Inv.remove {t : Traced ι} (h : Inv K D c key t) {i : ι} {p : Path} {fs : Disk} {ph : Phase}
    (hp : isCacheFile p = true) (ha : removeFile t.sys.disk p = some fs) (hph : ph.nonce = none)
    (hmine : ph.isStore = true → Mine t i) (hready : Ready K D c key fs t.hist i ph) :
    Inv K D c key ⟨t.sys.write i fs ph, t.hist⟩ := by
  obtain ⟨_, -, rfl⟩ := Option.map_eq_some_iff.mp ha
  refine h.write (fun j _ n _ q hq => ?_) (fun s hs raw hraw => ?_) (fun n hn => ?_) hmine hready
  · apply Function.update_of_ne
    intro e
    have := not_isCacheFile_of_isTmp hq
    rw [e, hp] at this
    cases this
  · by_cases hpath : pathFor c.root key = p
    · rw [hpath, Function.update_self] at hraw
      cases hraw
    · rw [Function.update_of_ne hpath] at hraw
      exact h.content s hs raw hraw
  · rw [hph] at hn
    cases hn

/-- what a lookup reads is recent, for the stores that had completed before -/
theorem Inv.recent {t : Traced ι} (h : Inv K D c key t) (i : ι) {raw : Bytes} {entry : CacheEntry}
    (hraw : t.sys.disk (pathFor c.root key) = some raw) (hentry : D.fromSlice raw = some entry) :
    Recent t.hist (t.hist.before i) entry.response := by
  intro s hs
  have hpub := (h.done s (h.before i s hs)).1
  obtain ⟨last, hlast⟩ := Option.isSome_iff_exists.mp
    (List.getLast?_isSome.mpr (List.ne_nil_of_mem hpub))
  obtain ⟨e, he, hget⟩ := h.content last hlast raw hraw
  obtain rfl := Option.some.inj (hentry.symm.trans he)
  exact ⟨last, hget, pair_last hpub hlast⟩

/-- behind its write, a store has brought its entry -/
theorem Ready.published {fs : Disk} {h : History ι} {i : ι} {ph : Phase}
    (hr : Ready K D c key fs h i ph) (hph : ph.isWritten = true) : h.storeOf i ∈ h.published := by
  cases ph with
  | idle | checking | reading | touching _ _ _ | making _ => cases hph
  | storing entry nonce rest =>
    cases rest with
    | nil => exact hr.2.1.mpr List.not_mem_nil
    | cons op rest => cases hph
  | listing => exact hr
  | walking files es => exact hr.1
  | evicting current es => exact hr.1

theorem next_inv {t : Traced ι} (h : Inv K D c key t) {i : ι} {x : Reply} {s' : Sys ι} {o : Outcome}
    (hc : Timely K D c key t (.next i x)) (hread : ReadsBack D c key t (.next i x))
    (hs : t.sys.next K D c key i x = some (s', o)) :
    Inv K D c key ⟨s', t.hist.recordNext c key i (t.sys.phase i) o⟩ := by
  have hready := h.ready i
  have hmine := h.mine i
  have hcases := next_cases hs
  have hc : t.timely K D c key i x (t.sys.phase i) := hc
  have hread : ∀ entry, (t.sys.phase i).Begins D c key t.sys.disk x entry →
      D.fromSlice (D.toVec entry) = some entry := hread
  generalize hph : t.sys.phase i = ph at hready hmine hcases hc hread ⊢
  have hidle : ((t.sys.goto i .idle).phase i).isStore = false := by
    show ((t.sys.write i t.sys.disk .idle).phase i).isStore = false
    rw [write_phase_self]
    rfl
  have hmine_idle : ph.isStore = true → Mine ⟨t.sys.goto i .idle, t.hist⟩ i :=
    fun hst => (hmine hst).write t.sys.disk .idle nofun
  cases hcases with
  | missed ph hst => exact h.idle i
  | failed ph =>
    show Inv K D c key ⟨_, if ph.isStore = true then t.hist.fail i else t.hist⟩
    by_cases hst : ph.isStore = true
    · rw [if_pos hst]
      exact (h.idle i).fail (hmine_idle hst) hidle
    · rw [if_neg hst]
      exact h.idle i
  | found => exact h.goto nofun nofun trivial
  | read raw entry hraw hentry =>
    have hback := hread _ ⟨raw, entry, hraw, hentry, rfl⟩
    have hrecent : Recent t.hist (t.hist.before i) entry.response := h.recent i hraw hentry
    exact h.goto (fun n hn j _ => Option.some.inj hn ▸ hc j) nofun
      ⟨hrecent, hback, x.sealedAt, Staged.begin _⟩
  | touched entry nonce op rest fs hx ha =>
    exact h.operate hready.2 (by rw [hph]; rfl) rfl ha (hc hx) nofun ⟨hready.1, hready.2.step ha⟩
  | hit entry nonce => exact (h.idle i).answer hready.1
  | made entry hdir =>
    obtain ⟨dir, hdir⟩ := Option.isSome_iff_exists.mp hdir
    refine h.goto (fun n hn j _ => Option.some.inj hn ▸ hc j) (fun _ => hmine rfl)
      ⟨hready.1, iff_of_false hready.2 ?_, hread _ rfl, x.sealedAt, Staged.begin _⟩
    exact not_not_intro (renames_mem_steps K writer _ x.nonce _ x.sealedAt hdir).1
  | wrote entry nonce op rest fs ha =>
    show Inv K D c key ⟨_, if decide (op = dataRename (pathFor c.root key) nonce) = true then
      t.hist.publish i else t.hist⟩
    by_cases hop : op = dataRename (pathFor c.root key) nonce
    · subst hop
      rw [if_pos (decide_eq_true rfl)]
      exact h.publish hph ha
    · rw [if_neg (by simpa using hop)]
      obtain ⟨hget, hpub, hw⟩ := hready
      refine h.operate hw (by rw [hph]; rfl) rfl ha (fun e => absurd e hop) (fun _ => hmine rfl)
        ⟨hget, hpub.trans (not_congr ?_), hw.step ha⟩
      rw [List.mem_cons, or_iff_right (Ne.symm hop)]
  | listing entry nonce =>
    exact h.goto nofun (fun _ => hmine rfl) (hready.published rfl)
  | walking => exact h.goto nofun (fun _ => hmine rfl) ⟨hready, nofun⟩
  | walked p ps found found' hfound =>
    refine h.goto nofun (fun _ => hmine rfl) ⟨hready.1, fun e he => ?_⟩
    obtain he | he := hfound e he
    · exact hready.2 e he
    · exact he
  | evicting found current =>
    exact h.goto nofun (fun _ => hmine rfl)
      ⟨hready.1, fun e he => hready.2 e (List.mem_mergeSort.mp he)⟩
  | evicted current current' e es fs ha =>
    exact h.remove (hready.2 e List.mem_cons_self) ha rfl (fun _ => hmine rfl)
      ⟨hready.1, fun e' he => hready.2 e' (List.mem_cons_of_mem _ he)⟩
  | stored ph hw =>
    have hst : ph.isStore = true := by
      cases ph with
      | idle | checking | reading | touching _ _ _ | making _ => cases hw
      | storing _ _ _ | listing | walking _ _ | evicting _ _ => rfl
    refine (h.idle i).complete (hmine_idle hst) hidle (hready.published hw) ?_
    cases ph with
    | idle | checking | reading | touching _ _ _ | making _ => cases hw
    | storing _ _ _ | listing | walking _ _ | evicting _ _ => exact hc _ hs rfl

theorem step_inv (t : Traced ι) (e : CallEvent ι) (t' : Traced ι) (h : Inv K D c key t)
    (hc : Timely K D c key t e ∧ ReadsBack D c key t e) (hs : t.step K D c key e = some t') :
    Inv K D c key t' := by
  obtain ⟨⟨s', o⟩, hstep, rfl⟩ := Option.map_eq_some_iff.mp hs
  cases e with
  | lookup i =>
    simp only [Sys.step] at hstep
    split_ifs at hstep with hi hno
    · obtain ⟨rfl, rfl⟩ := Prod.mk.inj (Option.some.inj hstep)
      exact h.beginLookup hi
    · obtain ⟨rfl, rfl⟩ := Prod.mk.inj (Option.some.inj hstep)
      exact (h.beginLookup hi).goto nofun nofun trivial
  | store i provider model resp createdUnix =>
    simp only [Sys.step] at hstep
    split_ifs at hstep with hi hno
    · obtain ⟨rfl, rfl⟩ := Prod.mk.inj (Option.some.inj hstep)
      show Inv K D c key ⟨_, if c.noStore = true then t.hist else _⟩
      rw [if_pos hno]
      exact h
    · obtain ⟨rfl, rfl⟩ := Prod.mk.inj (Option.some.inj hstep)
      show Inv K D c key ⟨_, if c.noStore = true then t.hist else _⟩
      rw [if_neg hno]
      refine (h.beginStore hi resp).goto nofun (fun _ => mine_beginStore h resp) ⟨?_, fun hm => ?_⟩
      · show (t.hist.stores ++ [resp])[Function.update t.hist.storeOf i t.hist.stores.length i]? = _
        rw [Function.update_self, List.getElem?_concat_length]
        rfl
      · have hm : Function.update t.hist.storeOf i t.hist.stores.length i ∈ t.hist.published := hm
        rw [Function.update_self] at hm
        exact absurd (h.begun _ (Or.inl hm)) (Nat.lt_irrefl _)
  | next i x => exact next_inv h hc.1 hc.2 hstep

/-! ## the runs -/

/-- an answer of a store whose entry came no earlier is fresh, when stores return in that order -/
theorem Inv.fresh {t : Traced ι} (h : Inv K D c key t) {x : Hit} (hx : x ∈ t.hist.hits) :
    x.Fresh t.hist := by
  intro s hs
  obtain ⟨hdone, hrecent⟩ := h.hits x hx
  obtain ⟨s', hget, rfl | hsub⟩ := hrecent s hs
  · exact ⟨s', hget, Or.inl rfl⟩
  · refine ⟨s', hget, Or.inr ?_⟩
    have hne : s' ≠ s := fun e => sublist_asymm h.once hsub (e ▸ e ▸ hsub)
    by_cases hlt : s < s'
    · exact Or.inl hlt
    · -- an older store whose entry came later has not returned before
      refine Or.inr fun hret => ?_
      have hpub : s' ∈ t.hist.published := hsub.subset (by simp)
      have horder := h.order s' s hret (hdone s hs) (by omega) hpub
      exact sublist_asymm h.once hsub horder

/-- **Freshness of the cache.**  In every run of concurrent lookups and stores whose steps are
timely, a lookup never answers with the response of an earlier store. -/
theorem lookup_fresh (K : Crates) (D : Codec) (c : CacheConfig) (key : String)
    (es : List (CallEvent ι)) (fs : Disk) (t : Traced ι)
    (hrun : Runs.run (Traced.step K D c key) (Traced.init fs) es = some t)
    (hread : Runs.Along (Traced.step K D c key) (ReadsBack D c key) (Traced.init fs) es)
    (hc : Runs.Along (Traced.step K D c key) (Timely K D c key) (Traced.init fs) es) :
    ∀ x ∈ t.hist.hits, x.Fresh t.hist := by
  have h : Inv K D c key t := Runs.run_inv step_inv es _ t (inv_init fs) (Runs.along_and hc hread) hrun
  exact fun x hx => h.fresh hx

/-! ## calls that nobody interrupts meet the conditions -/

theorem readsBack_of {s : Sys ι} {hist : History ι} {i : ι} {x : Reply} {ph : Phase}
    (hi : s.phase i = ph)
    (h : ∀ entry, ph.Begins D c key s.disk x entry → D.fromSlice (D.toVec entry) = some entry) :
    ReadsBack D c key ⟨s, hist⟩ (.next i x) := by
  show ∀ entry, (s.phase i).Begins D c key s.disk x entry → D.fromSlice (D.toVec entry) = some entry
  rw [hi]
  exact h

theorem timely_of {s : Sys ι} {hist : History ι} {i : ι} {x : Reply} {ph : Phase}
    (hi : s.phase i = ph) (h : Traced.timely K D c key ⟨s, hist⟩ i x ph) :
    Timely K D c key ⟨s, hist⟩ (.next i x) := by
  show Traced.timely K D c key ⟨s, hist⟩ i x (s.phase i)
  rw [hi]
  exact h

/-- a store does not return in the middle of its write -/
theorem timely_storing {s : Sys ι} {hist : History ι} {i : ι} {x : Reply} {entry : CacheEntry}
    {nonce : UInt64} {op : Op Path UInt8} {rest : List (Op Path UInt8)}
    (hi : s.phase i = .storing entry nonce (op :: rest)) :
    Timely K D c key ⟨s, hist⟩ (.next i x) := by
  apply timely_of hi
  intro r hr hstored
  obtain ⟨s', o⟩ := r
  obtain rfl : o = .stored := hstored
  have hcases := next_cases hr
  rw [hi] at hcases
  cases hcases with
  | stored _ hw => cases hw

section
variable {t : Traced ι} {i : ι} {x : Reply} {entry : CacheEntry} {dir : Path}

theorem storeCall_readsBack {provider model : String} {resp : LlmResponse}
    (hentry : newEntry c key provider model resp x.now = entry) (hno : c.noStore = false)
    (hcap : c.maxBytes = none) (hx : x.refused = false) (hi : t.sys.phase i = .idle)
    (hdir : parent (pathFor c.root key) = some dir)
    (hback : D.fromSlice (D.toVec entry) = some entry) :
    Runs.Along (Traced.step K D c key) (ReadsBack D c key) t
      (storeCall K D c key i provider model resp x) :=
  (store_alone hentry hno hcap hx hi hdir trivial
    (readsBack_of (goto_phase_self ..) fun _ he => he ▸ hback)
    (fun _ _ _ _ hi _ => readsBack_of hi fun _ h => h.elim)
    (fun _ hi => readsBack_of hi fun _ h => h.elim)).2

/-- the first store -/
theorem storeCall_timely {provider model : String} {resp : LlmResponse}
    (hentry : newEntry c key provider model resp x.now = entry) (hno : c.noStore = false)
    (hcap : c.maxBytes = none) (hx : x.refused = false) (hi : ∀ j, t.sys.phase j = .idle)
    (hdir : parent (pathFor c.root key) = some dir) (hret : t.hist.returned = []) :
    Runs.Along (Traced.step K D c key) (Timely K D c key) t
      (storeCall K D c key i provider model resp x) := by
  refine (store_alone hentry hno hcap hx (hi i) hdir trivial
    (timely_of (goto_phase_self ..) fun j => ?_) (fun _ _ _ _ hi _ => timely_storing hi)
    (fun s hs => timely_of hs fun _ _ _ a ha => ?_)).2
  · show ((t.sys.write i t.sys.disk (.making entry)).phase j).nonce ≠ some x.nonce
    by_cases hj : j = i
    · rw [hj, write_phase_self]
      exact nofun
    · rw [write_phase_of_ne _ hj, hi j]
      exact nofun
  · have ha : a ∈ t.hist.returned := ha
    rw [hret] at ha
    cases ha

theorem lookup_begins_readsBack (hno : c.noStore = false) (hx : x.refused = false)
    (hi : t.sys.phase i = .idle) {raw : Bytes} (hraw : t.sys.disk (pathFor c.root key) = some raw)
    (hentry : D.fromSlice raw = some entry) (hfresh : entry.isFresh x.now = true)
    (hdir : parent (pathFor c.root key) = some dir)
    (hback : D.fromSlice (D.toVec (entry.touch x.touched)) = some (entry.touch x.touched)) :
    Runs.Along (Traced.step K D c key) (ReadsBack D c key) t [.lookup i, .next i x, .next i x] := by
  refine (lookup_begins hno hx hi hraw hentry hfresh hdir trivial
    (readsBack_of (goto_phase_self ..) fun _ h => h.elim)
    (readsBack_of (goto_phase_self ..) fun e he => ?_)).2
  obtain ⟨raw', e', hraw', he', rfl⟩ := he
  obtain rfl := Option.some.inj (hraw.symm.trans hraw')
  obtain rfl := Option.some.inj (hentry.symm.trans he')
  exact hback

theorem lookup_begins_timely (hno : c.noStore = false) (hx : x.refused = false)
    (hi : ∀ j, t.sys.phase j = .idle) {raw : Bytes}
    (hraw : t.sys.disk (pathFor c.root key) = some raw) (hentry : D.fromSlice raw = some entry)
    (hfresh : entry.isFresh x.now = true) (hdir : parent (pathFor c.root key) = some dir) :
    Runs.Along (Traced.step K D c key) (Timely K D c key) t [.lookup i, .next i x, .next i x] := by
  refine (lookup_begins hno hx (hi i) hraw hentry hfresh hdir trivial
    (timely_of (goto_phase_self ..) trivial) (timely_of (goto_phase_self ..) fun j => ?_)).2
  show ((t.sys.write i t.sys.disk .reading).phase j).nonce ≠ some x.nonce
  by_cases hj : j = i
  · rw [hj, write_phase_self]
    exact nofun
  · rw [write_phase_of_ne _ hj, hi j]
    exact nofun

theorem lookup_ends_readsBack (hx : x.refused = false)
    (hi : t.sys.phase i = .touching entry x.nonce (writeBack K D c key entry x))
    (hdir : parent (pathFor c.root key) = some dir) :
    Runs.Along (Traced.step K D c key) (ReadsBack D c key) t (writeOut K D c key i entry x) :=
  (lookup_ends hx hi hdir (fun _ _ _ hi _ => readsBack_of hi fun _ h => h.elim)
    (fun _ hi => readsBack_of hi fun _ h => h.elim)).2

/-- the lookup writes back the response of the last store -/
theorem lookup_ends_timely (hx : x.refused = false)
    (hi : t.sys.phase i = .touching entry x.nonce (writeBack K D c key entry x))
    (hdir : parent (pathFor c.root key) = some dir)
    (hlast : ∀ s, t.hist.published.getLast? = some s → t.hist.stores[s]? = some entry.response) :
    Runs.Along (Traced.step K D c key) (Timely K D c key) t (writeOut K D c key i entry x) := by
  refine (lookup_ends hx hi hdir (fun t' op rest hi hist => timely_of hi fun _ _ => ?_)
    (fun _ hi => timely_of hi trivial)).2
  show ∀ s, t'.hist.published.getLast? = some s → t'.hist.stores[s]? = some entry.response
  rw [hist]
  exact hlast

end

end

/-! ## two stores and two lookups -/

def plainCache : CacheConfig where
  root := "cache"
  noStore := false
  ttlSecs := none
  maxBytes := none

def changedResponse : LlmResponse := { sampleResponse with text := "changed" }

def firstEntry : CacheEntry := newEntry plainCache sampleKey "mock" "m" sampleResponse 1700000000

def changedEntry : CacheEntry := newEntry plainCache sampleKey "mock" "m" changedResponse 1700000000

/-- the crate on the two entries -/
def twoCodec : Codec where
  toVec := jsonEntry
  fromSlice b :=
    if b = jsonEntry firstEntry then some firstEntry
    else if b = jsonEntry changedEntry then some changedEntry
    else none

def twoCrates : Crates where
  blake3 d :=
    if d = jsonEntry firstEntry then
      bigEndian 0x3f56cd6ff7dc6fde31cc4d4cb3077e121aea88371c2a79fe7c4b788927c0b508
    else if d = jsonEntry changedEntry then
      bigEndian 0x464de96699daf76c6c86223cb9c4ad13cb602ad1d5f911e79b514915bc18e8be
    else []
  toVec := jsonText
  fromSlice _ := none

/-- everything within one second -/
def promptly (nonce : UInt64) : Reply where
  refused := false
  now := 1700000000
  touched := 1700000000
  sealedAt := 1700000000
  nonce := nonce
  files := []

theorem fromSlice_first : twoCodec.fromSlice (twoCodec.toVec firstEntry) = some firstEntry := by
  simp only [twoCodec, if_true]

theorem fromSlice_changed :
    twoCodec.fromSlice (twoCodec.toVec changedEntry) = some changedEntry := by
  have hne : jsonEntry changedEntry ≠ jsonEntry firstEntry := by decide +kernel
  simp only [twoCodec, if_neg hne, if_true]

theorem sample_parent : parent (pathFor plainCache.root sampleKey) = some "cache/ne" := by
  decide +kernel

/-- the disk behind a write of an entry of the key holds it -/
theorem written_path (entry : CacheEntry) (x : Reply) (fs : Disk) :
    x.written twoCrates twoCodec plainCache sampleKey entry fs (pathFor plainCache.root sampleKey)
      = some (twoCodec.toVec entry) := written_dest ..

theorem init_write (fs fs' : Disk) (i : Bool) : (Sys.init fs).write i fs' .idle = Sys.init fs' := by
  show Sys.mk fs' (Function.update (fun _ => Phase.idle) i .idle) = _
  rw [Function.update_eq_self]
  rfl

/-- a process stores the first response, and looks it up -/
def firstCall : List (CallEvent Bool) :=
  storeCall twoCrates twoCodec plainCache sampleKey false "mock" "m" sampleResponse (promptly 1)

def secondCall : List (CallEvent Bool) :=
  [.lookup false, .next false (promptly 2), .next false (promptly 2)] ++
    writeOut twoCrates twoCodec plainCache sampleKey false firstEntry (promptly 2)

/-- the system behind the store -/
def firstStored : Traced Bool where
  sys := Sys.init ((promptly 1).written twoCrates twoCodec plainCache sampleKey firstEntry
    fun _ => none)
  hist := ((History.init.beginStore false sampleResponse).publish false).complete false

/-- the lookup has read the entry -/
def firstRead : Traced Bool where
  sys := firstStored.sys.goto false (.touching firstEntry (promptly 2).nonce
    (writeBack twoCrates twoCodec plainCache sampleKey firstEntry (promptly 2)))
  hist := firstStored.hist.beginLookup false

/-- the lookup has answered -/
def answered : Traced Bool where
  sys := firstRead.sys.write false ((promptly 2).written twoCrates twoCodec plainCache sampleKey
    firstEntry firstRead.sys.disk) .idle
  hist := firstRead.hist.answer false sampleResponse

theorem firstCall_run : Runs.run (Traced.step twoCrates twoCodec plainCache sampleKey)
      (Traced.init fun _ => none) firstCall = some firstStored ∧
    Runs.Along (Traced.step twoCrates twoCodec plainCache sampleKey)
      (ReadsBack twoCodec plainCache sampleKey) (Traced.init fun _ => none) firstCall ∧
    Runs.Along (Traced.step twoCrates twoCodec plainCache sampleKey)
      (Timely twoCrates twoCodec plainCache sampleKey) (Traced.init fun _ => none) firstCall := by
  have hentry : newEntry plainCache sampleKey "mock" "m" sampleResponse (promptly 1).now = firstEntry :=
    rfl
  have hno : plainCache.noStore = false := rfl
  have hcap : plainCache.maxBytes = none := rfl
  have hx : (promptly 1).refused = false := rfl
  have hi : ∀ j, (Traced.init fun _ => none : Traced Bool).sys.phase j = .idle := fun _ => rfl
  refine ⟨?_, storeCall_readsBack hentry hno hcap hx (hi false) sample_parent fromSlice_first,
    storeCall_timely hentry hno hcap hx hi sample_parent rfl⟩
  have hrun := (store_alone (K := twoCrates) (D := twoCodec) (G := fun _ _ => True) hentry hno hcap hx
    (hi false) sample_parent trivial trivial (fun _ _ _ _ _ _ => trivial) fun _ _ => trivial).1
  rw [show (Traced.init fun _ => none : Traced Bool).sys = Sys.init fun _ => none from rfl,
    init_write] at hrun
  exact hrun

theorem firstRead_run : Runs.run (Traced.step twoCrates twoCodec plainCache sampleKey) firstStored
      [.lookup false, .next false (promptly 2), .next false (promptly 2)] = some firstRead ∧
    Runs.Along (Traced.step twoCrates twoCodec plainCache sampleKey)
      (ReadsBack twoCodec plainCache sampleKey) firstStored
      [.lookup false, .next false (promptly 2), .next false (promptly 2)] ∧
    Runs.Along (Traced.step twoCrates twoCodec plainCache sampleKey)
      (Timely twoCrates twoCodec plainCache sampleKey) firstStored
      [.lookup false, .next false (promptly 2), .next false (promptly 2)] := by
  have hno : plainCache.noStore = false := rfl
  have hx : (promptly 2).refused = false := rfl
  have hi : ∀ j, firstStored.sys.phase j = .idle := fun _ => rfl
  have hraw : firstStored.sys.disk (pathFor plainCache.root sampleKey)
      = some (twoCodec.toVec firstEntry) := written_path firstEntry (promptly 1) fun _ => none
  have hfresh : firstEntry.isFresh (promptly 2).now = true := rfl
  refine ⟨?_, lookup_begins_readsBack hno hx (hi false) hraw fromSlice_first hfresh sample_parent
      fromSlice_first,
    lookup_begins_timely hno hx hi hraw fromSlice_first hfresh sample_parent⟩
  exact (lookup_begins (G := fun _ _ => True) hno hx (hi false) hraw fromSlice_first hfresh
    sample_parent trivial trivial trivial).1

theorem lookup_fresh_sample : ∃ t, Runs.run (Traced.step twoCrates twoCodec plainCache sampleKey)
      (Traced.init fun _ => none) (firstCall ++ secondCall) = some t ∧
    t.hist.hits = [⟨[0], sampleResponse⟩] ∧ ∀ x ∈ t.hist.hits, x.Fresh t.hist := by
  obtain ⟨r1, b1, t1⟩ := firstCall_run
  obtain ⟨r2, b2, t2⟩ := firstRead_run
  have hx : (promptly 2).refused = false := rfl
  have hi : firstRead.sys.phase false = .touching firstEntry (promptly 2).nonce
      (writeBack twoCrates twoCodec plainCache sampleKey firstEntry (promptly 2)) := goto_phase_self ..
  have hlast : ∀ s, firstRead.hist.published.getLast? = some s →
      firstRead.hist.stores[s]? = some firstEntry.response := by
    have hpub : firstRead.hist.published = [0] := rfl
    have hstores : firstRead.hist.stores = [sampleResponse] := rfl
    intro s hs
    rw [hpub] at hs
    obtain rfl : 0 = s := Option.some.inj hs
    rw [hstores]
    rfl
  have r3 := (lookup_ends (K := twoCrates) (D := twoCodec) (G := fun _ _ => True) (t := firstRead)
    (x := promptly 2) hx hi sample_parent (fun _ _ _ _ _ => trivial) fun _ _ => trivial).1
  have b3 := lookup_ends_readsBack (K := twoCrates) (D := twoCodec) (c := plainCache) (t := firstRead)
    (i := false) (x := promptly 2) hx hi sample_parent
  have t3 := lookup_ends_timely (K := twoCrates) (D := twoCodec) (c := plainCache) (t := firstRead)
    (i := false) (x := promptly 2) hx hi sample_parent hlast
  have hrun : Runs.run (Traced.step twoCrates twoCodec plainCache sampleKey)
      (Traced.init fun _ => none) (firstCall ++ secondCall) = some answered := by
    rw [Runs.run_append, r1, Option.bind_some, secondCall, Runs.run_append, r2, Option.bind_some]
    exact r3
  refine ⟨answered, hrun, rfl, lookup_fresh twoCrates twoCodec plainCache sampleKey (firstCall ++ secondCall)
    (fun _ => none) answered hrun ?_ ?_⟩
  · exact Runs.along_concat r1 b1 (Runs.along_concat r2 b2 b3)
  · exact Runs.along_concat r1 t1 (Runs.along_concat r2 t2 t3)

/-! ## a lookup in the middle of which a store completes -/

/-- the lookup of the other process has read the first entry -/
def staleRead : Traced Bool where
  sys := firstStored.sys.goto true (.touching firstEntry (promptly 2).nonce
    (writeBack twoCrates twoCodec plainCache sampleKey firstEntry (promptly 2)))
  hist := firstStored.hist.beginLookup true

/-- the first process has stored the changed response meanwhile -/
def staleStored : Traced Bool where
  sys := staleRead.sys.write false ((promptly 3).written twoCrates twoCodec plainCache sampleKey
    changedEntry staleRead.sys.disk) .idle
  hist := ((staleRead.hist.beginStore false changedResponse).publish false).complete false

/-- the lookup has written the first entry back -/
def staleWritten : Traced Bool where
  sys := staleStored.sys.write true ((promptly 2).written twoCrates twoCodec plainCache sampleKey
    firstEntry staleStored.sys.disk) .idle
  hist := staleStored.hist.answer true sampleResponse

/-- another lookup has read it -/
def staleReread : Traced Bool where
  sys := staleWritten.sys.goto false (.touching firstEntry (promptly 4).nonce
    (writeBack twoCrates twoCodec plainCache sampleKey firstEntry (promptly 4)))
  hist := staleWritten.hist.beginLookup false

def staleAnswered : Traced Bool where
  sys := staleReread.sys.write false ((promptly 4).written twoCrates twoCodec plainCache sampleKey
    firstEntry staleReread.sys.disk) .idle
  hist := staleReread.hist.answer false sampleResponse

def staleReads : List (CallEvent Bool) :=
  [.lookup true, .next true (promptly 2), .next true (promptly 2)]

def staleStores : List (CallEvent Bool) :=
  storeCall twoCrates twoCodec plainCache sampleKey false "mock" "m" changedResponse (promptly 3)

def staleWrites : List (CallEvent Bool) :=
  writeOut twoCrates twoCodec plainCache sampleKey true firstEntry (promptly 2)

def staleRereads : List (CallEvent Bool) :=
  [.lookup false, .next false (promptly 4), .next false (promptly 4)]

def staleAnswers : List (CallEvent Bool) :=
  writeOut twoCrates twoCodec plainCache sampleKey false firstEntry (promptly 4)

/-- a part of the run, whose writes are read back -/
def Leads (es : List (CallEvent Bool)) (t t' : Traced Bool) : Prop :=
  Runs.run (Traced.step twoCrates twoCodec plainCache sampleKey) t es = some t' ∧
    Runs.Along (Traced.step twoCrates twoCodec plainCache sampleKey)
      (ReadsBack twoCodec plainCache sampleKey) t es

theorem Leads.append {es fs : List (CallEvent Bool)} {t t₁ t₂ : Traced Bool} (h1 : Leads es t t₁)
    (h2 : Leads fs t₁ t₂) : Leads (es ++ fs) t t₂ := by
  refine ⟨?_, Runs.along_concat h1.1 h1.2 h2.2⟩
  rw [Runs.run_append, h1.1, Option.bind_some]
  exact h2.1

theorem staleReads_leads : Leads staleReads firstStored staleRead := by
  have hno : plainCache.noStore = false := rfl
  have hx : (promptly 2).refused = false := rfl
  have hi : firstStored.sys.phase true = .idle := rfl
  have hraw : firstStored.sys.disk (pathFor plainCache.root sampleKey)
      = some (twoCodec.toVec firstEntry) := written_path firstEntry (promptly 1) fun _ => none
  have hfresh : firstEntry.isFresh (promptly 2).now = true := rfl
  exact ⟨(lookup_begins (G := fun _ _ => True) hno hx hi hraw fromSlice_first hfresh sample_parent
      trivial trivial trivial).1,
    lookup_begins_readsBack hno hx hi hraw fromSlice_first hfresh sample_parent fromSlice_first⟩

theorem staleStores_leads : Leads staleStores staleRead staleStored := by
  have hentry : newEntry plainCache sampleKey "mock" "m" changedResponse (promptly 3).now
      = changedEntry := rfl
  have hno : plainCache.noStore = false := rfl
  have hcap : plainCache.maxBytes = none := rfl
  have hx : (promptly 3).refused = false := rfl
  have hi : staleRead.sys.phase false = .idle := rfl
  exact ⟨(store_alone (G := fun _ _ => True) hentry hno hcap hx hi sample_parent trivial trivial
      (fun _ _ _ _ _ _ => trivial) fun _ _ => trivial).1,
    storeCall_readsBack hentry hno hcap hx hi sample_parent fromSlice_changed⟩

theorem staleWrites_leads : Leads staleWrites staleStored staleWritten := by
  have hx : (promptly 2).refused = false := rfl
  have hi : staleStored.sys.phase true = .touching firstEntry (promptly 2).nonce
      (writeBack twoCrates twoCodec plainCache sampleKey firstEntry (promptly 2)) := rfl
  exact ⟨(lookup_ends (G := fun _ _ => True) hx hi sample_parent (fun _ _ _ _ _ => trivial)
      fun _ _ => trivial).1, lookup_ends_readsBack hx hi sample_parent⟩

theorem staleRereads_leads : Leads staleRereads staleWritten staleReread := by
  have hno : plainCache.noStore = false := rfl
  have hx : (promptly 4).refused = false := rfl
  have hi : staleWritten.sys.phase false = .idle := rfl
  have hraw : staleWritten.sys.disk (pathFor plainCache.root sampleKey)
      = some (twoCodec.toVec firstEntry) :=
    written_path firstEntry (promptly 2) staleStored.sys.disk
  have hfresh : firstEntry.isFresh (promptly 4).now = true := rfl
  exact ⟨(lookup_begins (G := fun _ _ => True) hno hx hi hraw fromSlice_first hfresh sample_parent
      trivial trivial trivial).1,
    lookup_begins_readsBack hno hx hi hraw fromSlice_first hfresh sample_parent fromSlice_first⟩

theorem staleAnswers_leads : Leads staleAnswers staleReread staleAnswered := by
  have hx : (promptly 4).refused = false := rfl
  have hi : staleReread.sys.phase false = .touching firstEntry (promptly 4).nonce
      (writeBack twoCrates twoCodec plainCache sampleKey firstEntry (promptly 4)) := rfl
  exact ⟨(lookup_ends (G := fun _ _ => True) hx hi sample_parent (fun _ _ _ _ _ => trivial)
      fun _ _ => trivial).1, lookup_ends_readsBack hx hi sample_parent⟩

/-- the last lookup begins behind both stores, and answers with the response of the first -/
theorem stale_answer :
    ¬ ∀ (K : Crates) (D : Codec) (c : CacheConfig) (key : String) (es : List (CallEvent Bool))
      (fs : Disk) (t : Traced Bool),
      Runs.run (Traced.step K D c key) (Traced.init fs) es = some t →
      Runs.Along (Traced.step K D c key) (ReadsBack D c key) (Traced.init fs) es →
        ∀ x ∈ t.hist.hits, x.Fresh t.hist := by
  intro hall
  have hfirst : Leads firstCall (Traced.init fun _ => none) firstStored :=
    ⟨firstCall_run.1, firstCall_run.2.1⟩
  have hleads := hfirst.append (staleReads_leads.append (staleStores_leads.append
    (staleWrites_leads.append (staleRereads_leads.append staleAnswers_leads))))
  have hhits : staleAnswered.hist.hits = [⟨[0], sampleResponse⟩, ⟨[0, 1], sampleResponse⟩] := rfl
  have hstores : staleAnswered.hist.stores = [sampleResponse, changedResponse] := rfl
  have hreturned : staleAnswered.hist.returned = [0, 1] := rfl
  have hfresh := hall twoCrates twoCodec plainCache sampleKey _ _ _ hleads.1 hleads.2
    ⟨[0, 1], sampleResponse⟩ (by rw [hhits]; simp)
  obtain ⟨s', hget, hs'⟩ := hfresh 1 (by simp)
  rw [hstores] at hget
  rw [hreturned] at hs'
  have hne : changedResponse ≠ sampleResponse := by decide
  match s' with
  | 0 => exact hs'.elim (by omega) fun h => h.elim (by omega) fun h => h (List.Sublist.refl _)
  | 1 => exact hne (Option.some.inj hget)
  | _ + 2 => cases hget

end Moagan.Cache
