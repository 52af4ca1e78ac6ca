import Moagan.Lib.Replace

/-!
# The texts that an expression matches

Which texts can be taken depends on the character before and the one behind them, and on no other
preference.

* `Spells`          the texts, between the character before and the one behind
* `spells_of_mem`   every way to match takes such a text
* `mem_of_spells`   and every such text is taken in some way
* `NoMatch`         there is none in a text
* `findIter_nil`    then, and only then, the engine finds nothing
-/

namespace Regex

variable {α : Type}

/-! ## the language -/

/-- one behind the other, so many times -/
def power (L : Option α → List α → Option α → Prop) :
    ℕ → Option α → List α → Option α → Prop
  | 0, _, a, _ => a = []
  | n + 1, prev, a, next => ∃ b c, a = b ++ c ∧ L prev b (c.head?.or next) ∧
      power L n (b.getLast?.or prev) c next

/-- the expression matches `a` between `prev` and `next` -/
def Spells : Regex α → Option α → List α → Option α → Prop
  | .empty, _, a, _ => a = []
  | .start, prev, a, _ => a = [] ∧ prev.isNone = true
  | .boundary word, prev, a, next => a = [] ∧ prev.any word ≠ next.any word
  | .cls p, _, a, _ => ∃ c, a = [c] ∧ p c = true
  | .seq r s, prev, a, next => ∃ b c, a = b ++ c ∧ r.Spells prev b (c.head?.or next) ∧
      s.Spells (b.getLast?.or prev) c next
  | .alt r s, prev, a, next => r.Spells prev a next ∨ s.Spells prev a next
  | .rep _ min max r, prev, a, next => ∃ n, min ≤ n ∧ (∀ k, max = some k → n ≤ min + (k - min)) ∧
      power r.Spells n prev a next
  | .group _ r, prev, a, next => r.Spells prev a next

theorem head?_append_or (a b : List α) (next : Option α) :
    (a ++ b).head?.or next = a.head?.or (b.head?.or next) := by
  cases a with
  | nil => rfl
  | cons c a => rfl

theorem getLast?_append_or (a b : List α) (prev : Option α) :
    (a ++ b).getLast?.or prev = b.getLast?.or (a.getLast?.or prev) := by
  rw [List.getLast?_append]
  cases b.getLast? with
  | none => rfl
  | some c => rfl

theorem head?_append_eq (a b : List α) : (a ++ b).head? = a.head?.or b.head? := by
  cases a with
  | nil => rfl
  | cons c a => rfl

/-! ## every way to match takes such a text -/

def Sound (L : Option α → List α → Option α → Prop) (f : Ways α) : Prop :=
  ∀ prev text, ∀ m ∈ f prev text, L prev m.taken m.rest.head?

section
variable {f g : Ways α} {L M : Option α → List α → Option α → Prop}

/-- what is behind a match that has been split -/
theorem head_of_split {text : List α} {m : Match α} (h : m.taken ++ m.rest = text) :
    text.head? = m.taken.head?.or m.rest.head? := by
  rw [← h]
  exact head?_append_eq _ _

theorem Sound.times (hs : All Splits f) (hf : Sound L f) (n : ℕ) :
    Sound (power L n) (times f n) := by
  induction n with
  | zero =>
    intro prev text m hm
    rw [List.mem_singleton.mp hm]
    rfl
  | succ n ih =>
    intro prev text x hx
    obtain ⟨m, hm, m', hm', rfl⟩ := mem_andThen.mp hx
    refine ⟨m.taken, m'.taken, rfl, ?_, ih _ _ _ hm'⟩
    show L prev m.taken (m'.taken.head?.or m'.rest.head?)
    rw [← head_of_split (splits_composes.times hs n _ _ _ hm')]
    exact hf _ _ _ hm

theorem Sound.upTo (hs : All Splits f) (hf : Sound L f) (greedy : Bool) {k : ℕ} {prev : Option α}
    {text : List α} {x : Match α} (hx : x ∈ upTo greedy f k prev text) :
    ∃ n, n ≤ k ∧ power L n prev x.taken x.rest.head? := by
  induction k generalizing prev text x with
  | zero =>
    rw [List.mem_singleton.mp hx]
    exact ⟨0, Nat.le_refl 0, rfl⟩
  | succ k ih =>
    obtain rfl | ⟨m, hm, hx⟩ := mem_upTo_succ.mp hx
    · exact ⟨0, Nat.zero_le _, rfl⟩
    obtain ⟨hnil, rfl⟩ | ⟨_, m', hm', rfl⟩ := mem_further.mp hx
    · -- a round that takes nothing
      refine ⟨1, by omega, x.taken, [], (List.append_nil _).symm, hf _ _ _ hm, rfl⟩
    · obtain ⟨n, hn, hpower⟩ := ih hm'
      refine ⟨n + 1, by omega, m.taken, m'.taken, rfl, ?_, hpower⟩
      show L prev m.taken (m'.taken.head?.or m'.rest.head?)
      rw [← head_of_split (splits_composes.upTo hs greedy k _ _ _ hm')]
      exact hf _ _ _ hm

theorem power_append {n k : ℕ} {prev next : Option α} {a b : List α}
    (ha : power L n prev a (b.head?.or next)) (hb : power L k (a.getLast?.or prev) b next) :
    power L (n + k) prev (a ++ b) next := by
  induction n generalizing prev a with
  | zero =>
    obtain rfl : a = [] := ha
    rw [Nat.zero_add]
    exact hb
  | succ n ih =>
    obtain ⟨c, d, rfl, hc, hd⟩ := ha
    rw [Nat.succ_add]
    refine ⟨c, d ++ b, List.append_assoc c d b, ?_, ih hd ?_⟩
    · rw [head?_append_or]
      exact hc
    · rw [← getLast?_append_or]
      exact hb

end

theorem spells_of_mem (r : Regex α) : Sound r.Spells r.ends := by
  induction r with
  | empty =>
    intro prev text m hm
    rw [List.mem_singleton.mp hm]
    rfl
  | start =>
    intro prev text m hm
    have hm : m ∈ if prev.isNone then [.stay text] else [] := hm
    cases hb : prev.isNone with
    | false =>
      rw [hb] at hm
      cases hm
    | true =>
      rw [hb] at hm
      rw [List.mem_singleton.mp hm]
      exact ⟨rfl, hb⟩
  | boundary word =>
    intro prev text m hm
    have hm : m ∈ if prev.any word != text.head?.any word then [.stay text] else [] := hm
    cases hb : prev.any word != text.head?.any word with
    | false =>
      rw [hb] at hm
      cases hm
    | true =>
      rw [hb] at hm
      rw [List.mem_singleton.mp hm]
      exact ⟨rfl, bne_iff_ne.mp hb⟩
  | cls p =>
    exact all_cls fun _ c _ hp => ⟨c, rfl, hp⟩
  | seq r s ihr ihs =>
    intro prev text x hx
    obtain ⟨m, hm, m', hm', rfl⟩ := mem_andThen.mp hx
    refine ⟨m.taken, m'.taken, rfl, ?_, ihs _ _ _ hm'⟩
    show r.Spells prev m.taken (m'.taken.head?.or m'.rest.head?)
    rw [← head_of_split (split_of_mem hm')]
    exact ihr _ _ _ hm
  | alt r s ihr ihs =>
    intro prev text m hm
    exact (List.mem_append.mp hm).imp (ihr _ _ _) (ihs _ _ _)
  | rep greedy min max r ih =>
    intro prev text x hx
    obtain ⟨m, hm, m', hm', rfl⟩ := mem_andThen.mp hx
    have hsplit := ends_split r
    have hmin := ih.times hsplit min prev text m hm
    have hmore : m'.taken ++ m'.rest = m.rest ∧ ∃ n, (∀ k, max = some k → n ≤ k - min) ∧
        power r.Spells n (m.last prev) m'.taken m'.rest.head? := by
      cases max with
      | none =>
        obtain ⟨n, _, hpower⟩ := ih.upTo hsplit greedy hm'
        exact ⟨splits_composes.upTo hsplit greedy _ _ _ _ hm', n, nofun, hpower⟩
      | some k =>
        obtain ⟨n, hn, hpower⟩ := ih.upTo hsplit greedy hm'
        refine ⟨splits_composes.upTo hsplit greedy _ _ _ _ hm', n, fun k' hk' => ?_, hpower⟩
        rw [← Option.some.inj hk']
        exact hn
    obtain ⟨hrest, n, hn, hpower⟩ := hmore
    refine ⟨min + n, by omega, fun k hk => ?_, power_append ?_ hpower⟩
    · have hle := hn k hk
      omega
    · show power _ min prev m.taken (m'.taken.head?.or m'.rest.head?)
      rw [← head_of_split hrest]
      exact hmin
  | group name r ih =>
    intro prev text x hx
    obtain ⟨m, hm, rfl⟩ := List.mem_map.mp hx
    exact ih _ _ m hm

/-! ## every such text is taken in some way -/

/-- a way to take `a` in front of `rest` -/
def Takable (f : Ways α) (prev : Option α) (a rest : List α) : Prop :=
  ∃ groups, (⟨a, rest, groups⟩ : Match α) ∈ f prev (a ++ rest)

def Complete (L : Option α → List α → Option α → Prop) (f : Ways α) : Prop :=
  ∀ prev a rest, L prev a rest.head? → Takable f prev a rest

section
variable {f g : Ways α} {L M : Option α → List α → Option α → Prop}

theorem Takable.andThen {prev : Option α} {a b rest : List α} (hf : Takable f prev a (b ++ rest))
    (hg : Takable g (a.getLast?.or prev) b rest) : Takable (andThen f g) prev (a ++ b) rest := by
  obtain ⟨gs, hm⟩ := hf
  obtain ⟨gs', hm'⟩ := hg
  refine ⟨gs ++ gs', mem_andThen.mpr ⟨⟨a, b ++ rest, gs⟩, ?_, ⟨b, rest, gs'⟩, hm', rfl⟩⟩
  rw [List.append_assoc]
  exact hm

theorem Complete.times (hf : Complete L f) (n : ℕ) : Complete (power L n) (times f n) := by
  induction n with
  | zero =>
    intro prev a rest h
    obtain rfl : a = [] := h
    exact ⟨[], List.mem_singleton_self _⟩
  | succ n ih =>
    intro prev a rest h
    obtain ⟨b, c, rfl, hb, hc⟩ := h
    apply Takable.andThen (hf prev b (c ++ rest) _) (ih _ c rest hc)
    rw [head?_append_eq]
    exact hb

/-- rounds that take nothing are left out -/
theorem Complete.upTo (hf : Complete L f) (greedy : Bool) {n k : ℕ} {prev : Option α}
    {a rest : List α} (hk : n ≤ k ∨ a.length ≤ k) (h : power L n prev a rest.head?) :
    Takable (upTo greedy f k) prev a rest := by
  have hstay : ∀ k prev, Takable (Regex.upTo greedy f k) prev [] rest := by
    intro k prev
    refine ⟨[], ?_⟩
    cases k with
    | zero => exact List.mem_singleton_self _
    | succ k => exact mem_upTo_succ.mpr (Or.inl rfl)
  induction n generalizing k prev a with
  | zero =>
    obtain rfl : a = [] := h
    exact hstay k prev
  | succ n ih =>
    obtain ⟨b, c, rfl, hb, hc⟩ := h
    cases b with
    | nil =>
      have hk : n ≤ k ∨ c.length ≤ k := hk.imp (fun h => by omega) id
      exact ih hk hc
    | cons d b =>
      rw [List.length_append, List.length_cons] at hk
      obtain ⟨k, rfl⟩ : ∃ j, k = j + 1 := ⟨k - 1, by omega⟩
      obtain ⟨gs, hm⟩ := hf prev (d :: b) (c ++ rest) (by rw [head?_append_eq]; exact hb)
      have hk : n ≤ k ∨ c.length ≤ k := hk.imp (fun h => by omega) fun h => by omega
      obtain ⟨gs', hm'⟩ := ih hk hc
      refine ⟨gs ++ gs', mem_upTo_succ.mpr (Or.inr ⟨⟨d :: b, c ++ rest, gs⟩, ?_, mem_further.mpr
        (Or.inr ⟨List.cons_ne_nil d b, ⟨c, rest, gs'⟩, hm', rfl⟩)⟩)⟩
      rw [List.append_assoc]
      exact hm

/-- the first rounds of many -/
theorem power_split {n k : ℕ} {prev next : Option α} {a : List α}
    (h : power L (n + k) prev a next) : ∃ b c, a = b ++ c ∧ power L n prev b (c.head?.or next) ∧
      power L k (b.getLast?.or prev) c next := by
  induction n generalizing prev a with
  | zero =>
    rw [Nat.zero_add] at h
    exact ⟨[], a, rfl, rfl, h⟩
  | succ n ih =>
    rw [Nat.succ_add] at h
    obtain ⟨b, c, rfl, hb, hc⟩ := h
    obtain ⟨d, e, rfl, hd, he⟩ := ih hc
    refine ⟨b ++ d, e, (List.append_assoc b d e).symm, ⟨b, d, rfl, ?_, hd⟩, ?_⟩
    · rw [← head?_append_or]
      exact hb
    · rw [getLast?_append_or]
      exact he

end

theorem mem_of_spells (r : Regex α) : Complete r.Spells r.ends := by
  induction r with
  | empty =>
    intro prev a rest h
    obtain rfl : a = [] := h
    exact ⟨[], List.mem_singleton_self _⟩
  | start =>
    intro prev a rest h
    obtain ⟨rfl, hp⟩ := h
    refine ⟨[], ?_⟩
    show _ ∈ if prev.isNone then [Match.stay rest] else []
    rw [hp]
    exact List.mem_singleton_self _
  | boundary word =>
    intro prev a rest h
    obtain ⟨rfl, hp⟩ := h
    refine ⟨[], ?_⟩
    show _ ∈ if prev.any word != rest.head?.any word then [Match.stay rest] else []
    rw [bne_iff_ne.mpr hp]
    exact List.mem_singleton_self _
  | cls p =>
    intro prev a rest h
    obtain ⟨c, rfl, hp⟩ := h
    refine ⟨[], ?_⟩
    show _ ∈ if p c then [(⟨[c], rest, []⟩ : Match α)] else []
    rw [hp]
    exact List.mem_singleton_self _
  | seq r s ihr ihs =>
    intro prev a rest h
    obtain ⟨b, c, rfl, hb, hc⟩ := h
    apply Takable.andThen (ihr prev b (c ++ rest) _) (ihs _ c rest hc)
    rw [head?_append_eq]
    exact hb
  | alt r s ihr ihs =>
    intro prev a rest h
    obtain h | h := h
    · obtain ⟨gs, hm⟩ := ihr _ _ _ h
      exact ⟨gs, List.mem_append_left _ hm⟩
    · obtain ⟨gs, hm⟩ := ihs _ _ _ h
      exact ⟨gs, List.mem_append_right _ hm⟩
  | rep greedy min max r ih =>
    intro prev a rest h
    obtain ⟨n, hn, hmax, hpower⟩ := h
    obtain ⟨j, rfl⟩ : ∃ j, n = min + j := ⟨n - min, by omega⟩
    obtain ⟨b, c, rfl, hb, hc⟩ := power_split hpower
    apply Takable.andThen (ih.times min prev b (c ++ rest) _)
    · cases max with
      | none =>
        have hlen : c.length ≤ (c ++ rest).length + 1 := by
          rw [List.length_append]
          omega
        exact ih.upTo greedy (Or.inr hlen) hc
      | some k =>
        have hk := hmax k rfl
        exact ih.upTo greedy (Or.inl (by omega)) hc
    · rw [head?_append_eq]
      exact hb
  | group name r ih =>
    intro prev a rest h
    obtain ⟨gs, hm⟩ := ih _ _ _ h
    exact ⟨(name, a) :: gs, List.mem_map.mpr ⟨_, hm, rfl⟩⟩

/-- **Nothing matches at a place iff no text there is in the language.** -/
theorem ends_nil_iff {r : Regex α} {prev : Option α} {text : List α} : r.ends prev text = [] ↔
    ∀ a v, text = a ++ v → ¬ r.Spells prev a v.head? := by
  rw [List.eq_nil_iff_forall_not_mem]
  constructor
  · rintro h a v rfl hspells
    obtain ⟨gs, hm⟩ := mem_of_spells r prev a v hspells
    exact h _ hm
  · intro h m hm
    exact h m.taken m.rest (split_of_mem hm).symm (spells_of_mem r _ _ _ hm)

/-! ## what is known of the texts -/

theorem head?_toList (next : Option α) : next.toList.head? = next := by
  cases next with
  | none => rfl
  | some c => rfl

/-- what holds of all that is taken -/
theorem spells_all {r : Regex α} {Q : List α → Prop}
    (h : All (fun _ _ m => Q m.taken) r.ends) {prev next : Option α} {a : List α}
    (ha : r.Spells prev a next) : Q a := by
  rw [← head?_toList next] at ha
  obtain ⟨gs, hm⟩ := mem_of_spells r prev a _ ha
  exact h _ _ _ hm

theorem spells_ne_nil {r : Regex α} (h : r.nullable = false) {prev next : Option α} {a : List α}
    (ha : r.Spells prev a next) : a ≠ [] :=
  spells_all (Q := fun a => a ≠ []) (ends_takes h) ha

theorem spells_avoid {r : Regex α} {c : α} (h : r.mayTake c = false) {prev next : Option α}
    {a : List α} (ha : r.Spells prev a next) : c ∉ a :=
  spells_all (Q := fun a => c ∉ a) (ends_avoid h) ha

theorem power_induction {L : Option α → List α → Option α → Prop} {Q : ℕ → List α → Prop}
    (zero : Q 0 []) (succ : ∀ n prev b c next, L prev b next → Q n c → Q (n + 1) (b ++ c)) {n : ℕ}
    {prev next : Option α} {a : List α} (h : power L n prev a next) : Q n a := by
  induction n generalizing prev a with
  | zero =>
    obtain rfl : a = [] := h
    exact zero
  | succ n ih =>
    obtain ⟨b, c, rfl, hb, hc⟩ := h
    exact succ n prev b c _ hb (ih hc)

/-- at least so many characters are taken -/
def minLen : Regex α → ℕ
  | .empty | .start | .boundary _ => 0
  | .cls _ => 1
  | .seq r s => r.minLen + s.minLen
  | .alt r s => Nat.min r.minLen s.minLen
  | .rep _ min _ r => min * r.minLen
  | .group _ r => r.minLen

theorem minLen_le {r : Regex α} {prev next : Option α} {a : List α} (h : r.Spells prev a next) :
    r.minLen ≤ a.length := by
  induction r generalizing prev next a with
  | empty | start | boundary word => exact Nat.zero_le _
  | cls p =>
    obtain ⟨c, rfl, _⟩ := h
    exact Nat.le_refl 1
  | seq r s ihr ihs =>
    obtain ⟨b, c, rfl, hb, hc⟩ := h
    rw [List.length_append]
    exact Nat.add_le_add (ihr hb) (ihs hc)
  | alt r s ihr ihs =>
    obtain h | h := h
    · exact Nat.le_trans (Nat.min_le_left _ _) (ihr h)
    · exact Nat.le_trans (Nat.min_le_right _ _) (ihs h)
  | rep greedy min max r ih =>
    obtain ⟨n, hn, _, hpower⟩ := h
    have hlen : n * r.minLen ≤ a.length := by
      refine power_induction (Q := fun n a => n * r.minLen ≤ a.length)
        (Nat.le_of_eq (Nat.zero_mul _)) (fun n prev b c next hb hc => ?_) hpower
      rw [List.length_append, Nat.succ_mul, Nat.add_comm]
      exact Nat.add_le_add (ih hb) hc
    exact Nat.le_trans (Nat.mul_le_mul_right _ hn) hlen
  | group name r ih => exact ih h

/-- so many characters of a class -/
theorem power_cls {p : α → Bool} {n : ℕ} {prev next : Option α} {a : List α} :
    power (cls p).Spells n prev a next ↔ a.length = n ∧ a.all p = true := by
  induction n generalizing prev a with
  | zero =>
    show a = [] ↔ _
    rw [List.length_eq_zero_iff]
    refine ⟨fun h => ⟨h, ?_⟩, fun h => h.1⟩
    rw [h]
    rfl
  | succ n ih =>
    constructor
    · rintro ⟨_, c, rfl, ⟨b, rfl, hb⟩, hc⟩
      obtain ⟨hlen, hall⟩ := ih.mp hc
      simp [hlen, hb, hall]
    · rintro ⟨hlen, hall⟩
      cases a with
      | nil => cases hlen
      | cons b c =>
        simp only [List.length_cons, Nat.add_right_cancel_iff, List.all_cons,
          Bool.and_eq_true] at hlen hall
        exact ⟨[b], c, rfl, ⟨b, rfl, hall.1⟩, ih.mpr ⟨hlen, hall.2⟩⟩

theorem spells_atLeast {p : α → Bool} {greedy : Bool} {n : ℕ} {prev next : Option α} {a : List α} :
    (rep greedy n none (cls p)).Spells prev a next ↔ n ≤ a.length ∧ a.all p = true := by
  constructor
  · rintro ⟨k, hk, _, hpower⟩
    obtain ⟨hlen, hall⟩ := power_cls.mp hpower
    exact ⟨by omega, hall⟩
  · rintro ⟨hlen, hall⟩
    exact ⟨a.length, hlen, nofun, power_cls.mpr ⟨rfl, hall⟩⟩

/-- **The surroundings do not matter to an expression that does not tell them apart.** -/
theorem spells_alike {r : Regex α} {prev prev' next next' : Option α}
    (hprev : r.alike prev prev' = true) (hnext : r.alike next next' = true) {a : List α}
    (h : r.Spells prev a next) : r.Spells prev' a next' := by
  have hor : ∀ (r : Regex α) (o : Option α) {x y : Option α}, r.alike x y = true →
      r.alike (o.or x) (o.or y) = true := by
    intro r o x y hxy
    cases o with
    | none => exact hxy
    | some c => exact alike_refl _ r
  induction r generalizing prev prev' next next' a with
  | empty | cls p => exact h
  | start =>
    refine ⟨h.1, ?_⟩
    rw [← (eq_of_beq hprev : prev.isNone = prev'.isNone)]
    exact h.2
  | boundary word =>
    refine ⟨h.1, ?_⟩
    rw [← (eq_of_beq hprev : prev.any word = prev'.any word),
      ← (eq_of_beq hnext : next.any word = next'.any word)]
    exact h.2
  | seq r s ihr ihs =>
    obtain ⟨b, c, rfl, hb, hc⟩ := h
    obtain ⟨hprev1, hprev2⟩ := Bool.and_eq_true_iff.mp hprev
    obtain ⟨hnext1, hnext2⟩ := Bool.and_eq_true_iff.mp hnext
    exact ⟨b, c, rfl, ihr hprev1 (hor r _ hnext1) hb, ihs (hor s _ hprev2) hnext2 hc⟩
  | alt r s ihr ihs =>
    obtain ⟨hprev1, hprev2⟩ := Bool.and_eq_true_iff.mp hprev
    obtain ⟨hnext1, hnext2⟩ := Bool.and_eq_true_iff.mp hnext
    exact h.imp (ihr hprev1 hnext1) (ihs hprev2 hnext2)
  | rep greedy min max r ih =>
    obtain ⟨n, hn, hmax, hpower⟩ := h
    refine ⟨n, hn, hmax, ?_⟩
    clear hn hmax
    induction n generalizing prev prev' a with
    | zero => exact hpower
    | succ n ihn =>
      obtain ⟨b, c, rfl, hb, hc⟩ := hpower
      exact ⟨b, c, rfl, ih hprev (hor r _ hnext) hb, ihn (hor r _ hprev) hc⟩
  | group name r ih => exact ih hprev hnext h

/-! ## texts without a match -/

/-- nowhere between the character before and the one behind -/
def Absent (L : Option α → List α → Option α → Prop) (text : List α) : Prop :=
  ∀ u a v, text = u ++ (a ++ v) → ¬ L u.getLast? a v.head?

def NoMatch (r : Regex α) (text : List α) : Prop := Absent r.Spells text

theorem ends_nil_of_first {r : Regex α} (h : r.nullable = false) {prev : Option α} {text : List α}
    (hfirst : r.first prev text = none) : r.ends prev text = [] := by
  rw [first_eq_head h] at hfirst
  exact List.head?_eq_none_iff.mp hfirst

def Piece.hit : Piece α → Option (Match α)
  | .plain _ => none
  | .found m => some m

/-- what the engine has found at each place of the scan -/
theorem scan_at {r : Regex α} {prev : Option α} {text : List α} {ps₁ ps₂ : List (Piece α)}
    {piece : Piece α} (h : r.scan prev text = ps₁ ++ piece :: ps₂) :
    r.first ((ps₁.flatMap Piece.source).getLast?.or prev)
        (piece.source ++ ps₂.flatMap Piece.source) = piece.hit := by
  induction prev, text using scan_induction r generalizing ps₁ with
  | nil prev => cases ps₁ <;> cases h
  | plain prev c text hfirst ih =>
    rw [scan_plain hfirst] at h
    cases ps₁ with
    | nil =>
      obtain ⟨rfl, rfl⟩ := List.cons.inj h
      rw [scan_source]
      exact hfirst
    | cons p ps₁ =>
      rw [List.cons_append] at h
      obtain ⟨rfl, htail⟩ := List.cons.inj h
      rw [← ih htail, List.flatMap_cons, getLast?_append_or]
      rfl
  | found prev c text m hfirst ih =>
    rw [scan_found hfirst] at h
    cases ps₁ with
    | nil =>
      obtain ⟨rfl, rfl⟩ := List.cons.inj h
      rw [scan_source, source_found, split_of_mem (first_mem hfirst).1]
      exact hfirst
    | cons p ps₁ =>
      rw [List.cons_append] at h
      obtain ⟨rfl, htail⟩ := List.cons.inj h
      rw [← ih htail, List.flatMap_cons, getLast?_append_or]
      rfl

theorem scan_rest {r : Regex α} {prev : Option α} {text : List α} {ps₁ ps₂ : List (Piece α)}
    {m : Match α} (h : r.scan prev text = ps₁ ++ .found m :: ps₂) :
    m.rest = ps₂.flatMap Piece.source ∧
      m ∈ r.ends ((ps₁.flatMap Piece.source).getLast?.or prev) (m.taken ++ m.rest) := by
  have hmem := (first_mem (scan_at h)).1
  have hrest := List.append_cancel_left (split_of_mem hmem)
  refine ⟨hrest, ?_⟩
  rw [hrest]
  exact hmem

/-- **The engine finds nothing iff there is no match.** -/
theorem findIter_nil {r : Regex α} (h : r.nullable = false) {text : List α} :
    r.findIter text = [] ↔ r.NoMatch text := by
  have hsource := scan_source r none text
  constructor
  · intro hnil u a v htext hspells
    -- all pieces are characters
    have hplain : r.scan none text = text.map .plain := by
      rw [← hsource]
      have hall : ∀ p ∈ r.scan none text, ∃ c, p = .plain c := by
        intro p hp
        cases p with
        | plain c => exact ⟨c, rfl⟩
        | found m =>
          have hmem : m.taken ∈ r.findIter text := List.mem_filterMap.mpr ⟨.found m, hp, rfl⟩
          rw [hnil] at hmem
          cases hmem
      rw [hsource]
      generalize r.scan none text = ps at hall hsource
      subst hsource
      clear hnil htext hspells
      induction ps with
      | nil => rfl
      | cons p ps ih =>
        obtain ⟨c, rfl⟩ := hall p List.mem_cons_self
        have hrest := ih fun q hq => hall q (List.mem_cons_of_mem _ hq)
        show Piece.plain c :: ps = .plain c :: (ps.flatMap Piece.source).map .plain
        rw [← hrest]
    cases a with
    | nil => exact spells_ne_nil h hspells rfl
    | cons c a =>
      have hsplit : r.scan none text
          = u.map .plain ++ .plain c :: (a ++ v).map .plain := by
        rw [hplain, htext, List.map_append]
        rfl
      have hmap : ∀ l : List α, (l.map Piece.plain).flatMap Piece.source = l := by
        intro l
        rw [List.flatMap_map]
        exact List.flatMap_singleton' l
      have hfirst := scan_at hsplit
      rw [hmap, hmap, Option.or_none] at hfirst
      exact ends_nil_iff.mp (ends_nil_of_first h hfirst) (c :: a) v rfl hspells
  · intro hno
    rw [List.eq_nil_iff_forall_not_mem]
    intro t ht
    obtain ⟨piece, hpiece, _⟩ := List.mem_filterMap.mp ht
    cases piece with
    | plain c => contradiction
    | found m =>
      obtain ⟨ps₁, ps₂, hps⟩ := List.append_of_mem hpiece
      obtain ⟨hrest, hm⟩ := scan_rest hps
      rw [Option.or_none] at hm
      refine hno _ m.taken m.rest ?_ (spells_of_mem r _ _ _ hm)
      rw [← hsource, hps, List.flatMap_append, List.flatMap_cons, hrest]
      rfl

end Regex
