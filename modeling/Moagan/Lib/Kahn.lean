import Mathlib.Data.List.Sort
import Mathlib.Logic.Function.Basic
import Moagan.Lib.Layers

/-!
# Kahn's algorithm in layers

The vertices are the numbers below `n`, an edge is a pair of a parent and a child, and it may be
there more than once.

* `strike`       one edge after the other is struck; the children that lose their last one
* `layers`       layer after layer, with the degrees that are left
* `Stage`        what holds between two layers: `done` is complete and the frontier is what comes next
* `mem_done`     in the end the vertices that are done are those below which no edge leads on forever
* `layers_layered`   the layers are layers of the edges
* `layers_all`   the layers have as many vertices as there are iff every vertex is such
-/

namespace Kahn

open Layering

/-- strike an edge of each of these children; with the children whose last edge it was -/
def strike (deg : ℕ → ℕ) : List ℕ → (ℕ → ℕ) × List ℕ
  | [] => (deg, [])
  | c :: cs =>
    let r := strike (Function.update deg c (deg c - 1)) cs
    (r.1, if deg c - 1 = 0 then c :: r.2 else r.2)

def children (edges : List (ℕ × ℕ)) (p : ℕ) : List ℕ := (edges.filter (·.1 = p)).map Prod.snd

def inDegree (edges : List (ℕ × ℕ)) (c : ℕ) : ℕ := (edges.filter (·.2 = c)).length

/-- the layers from a frontier on, and the degrees in the end -/
def layers (edges : List (ℕ × ℕ)) : ℕ → (ℕ → ℕ) → List ℕ → List (List ℕ) × (ℕ → ℕ)
  | 0, deg, _ => ([], deg)
  | fuel + 1, deg, frontier =>
    if frontier = [] then ([], deg)
    else
      let layer := frontier.mergeSort (· ≤ ·)
      let (deg, next) := strike deg (layer.flatMap (children edges))
      let (rest, deg) := layers edges fuel deg next
      (layer :: rest, deg)

/-! ## one layer -/

/-- **Striking takes its edges off, and finds the children that it leaves without one.** -/
theorem strike_spec (cs : List ℕ) : ∀ deg : ℕ → ℕ, (∀ c, cs.count c ≤ deg c) →
    (∀ c, (strike deg cs).1 c = deg c - cs.count c) ∧ (strike deg cs).2.Nodup ∧
      ∀ c, c ∈ (strike deg cs).2 ↔ c ∈ cs ∧ deg c = cs.count c := by
  induction cs with
  | nil =>
    intro deg _
    exact ⟨fun c => rfl, List.nodup_nil, fun c => by simp [strike]⟩
  | cons a cs ih =>
    intro deg hle
    have hcount : ∀ c, (a :: cs).count c = cs.count c + if a = c then 1 else 0 := by
      intro c
      rw [List.count_cons]
      simp
    have hle' : ∀ c, cs.count c ≤ Function.update deg a (deg a - 1) c := by
      intro c
      have hc := hle c
      rw [hcount] at hc
      by_cases hac : a = c
      · subst hac
        rw [Function.update_self]
        rw [if_pos rfl] at hc
        omega
      · rw [Function.update_of_ne (Ne.symm hac)]
        omega
    obtain ⟨hdeg, hnodup, hmem⟩ := ih _ hle'
    have ha : cs.count a ≤ deg a - 1 := by
      have := hle' a
      rwa [Function.update_self] at this
    have ha1 : cs.count a + 1 ≤ deg a := by
      have := hle a
      rwa [hcount, if_pos rfl] at this
    have hother : ∀ c, c ≠ a → Function.update deg a (deg a - 1) c = deg c ∧
        (a :: cs).count c = cs.count c := by
      intro c hca
      rw [Function.update_of_ne hca, hcount, if_neg (Ne.symm hca)]
      exact ⟨rfl, rfl⟩
    refine ⟨fun c => ?_, ?_, fun c => ?_⟩
    · show (strike _ cs).1 c = _
      rw [hdeg]
      by_cases hca : c = a
      · subst hca
        rw [Function.update_self, hcount, if_pos rfl]
        omega
      · rw [(hother c hca).1, (hother c hca).2]
    · show (if deg a - 1 = 0 then a :: (strike _ cs).2 else (strike _ cs).2).Nodup
      split
      · rename_i hlast
        refine List.nodup_cons.mpr ⟨fun hin => ?_, hnodup⟩
        have := List.count_pos_iff.mpr ((hmem a).mp hin).1
        omega
      · exact hnodup
    · show c ∈ (if deg a - 1 = 0 then a :: (strike _ cs).2 else (strike _ cs).2) ↔ _
      by_cases hca : c = a
      · subst hca
        rw [hcount, if_pos rfl]
        split
        · rename_i hlast
          exact iff_of_true List.mem_cons_self ⟨List.mem_cons_self, by omega⟩
        · rename_i hmore
          rw [hmem, Function.update_self]
          constructor
          · intro ⟨_, hd⟩
            exact ⟨List.mem_cons_self, by omega⟩
          · intro ⟨_, hd⟩
            exact ⟨List.count_pos_iff.mp (by omega), by omega⟩
      · have hsame : c ∈ (if deg a - 1 = 0 then a :: (strike (Function.update deg a (deg a - 1)) cs).2
            else (strike (Function.update deg a (deg a - 1)) cs).2) ↔
            c ∈ (strike (Function.update deg a (deg a - 1)) cs).2 := by
          split
          · exact ⟨fun h => (List.mem_cons.mp h).resolve_left hca, List.mem_cons_of_mem a⟩
          · exact Iff.rfl
        rw [hsame, hmem, (hother c hca).1, (hother c hca).2, List.mem_cons]
        exact ⟨fun h => ⟨Or.inr h.1, h.2⟩, fun h => ⟨h.1.resolve_left hca, h.2⟩⟩

theorem strike_append (cs ds : List ℕ) (deg : ℕ → ℕ) :
    strike deg (cs ++ ds)
      = ((strike (strike deg cs).1 ds).1, (strike deg cs).2 ++ (strike (strike deg cs).1 ds).2) := by
  induction cs generalizing deg with
  | nil => rfl
  | cons a cs ih =>
    simp only [List.cons_append, strike]
    rw [ih]
    split <;> rfl

/-- the number of edges of a child from these parents -/
def fromParents (edges : List (ℕ × ℕ)) (ps : List ℕ) (c : ℕ) : ℕ :=
  edges.countP fun e => e.1 ∈ ps ∧ e.2 = c

theorem fromParents_cons (edges : List (ℕ × ℕ)) {p : ℕ} {ps : List ℕ} (hp : p ∉ ps) (c : ℕ) :
    fromParents edges (p :: ps) c = (children edges p).count c + fromParents edges ps c := by
  unfold fromParents children
  induction edges with
  | nil => rfl
  | cons e edges ih =>
    rw [List.countP_cons, List.countP_cons, ih, List.filter_cons]
    by_cases h1 : e.1 = p
    · have h2 : e.1 ∉ ps := h1 ▸ hp
      by_cases h3 : e.2 = c
      · simp [h1, h3, hp]
        omega
      · simp [h1, h3]
    · by_cases h2 : e.1 ∈ ps ∧ e.2 = c
      · simp [h1, h2]
        omega
      · simp [h1, h2]

theorem count_children (edges : List (ℕ × ℕ)) {ps : List ℕ} (hps : ps.Nodup) (c : ℕ) :
    (ps.flatMap (children edges)).count c = fromParents edges ps c := by
  induction ps with
  | nil => simp [fromParents]
  | cons p ps ih =>
    obtain ⟨hp, hps⟩ := List.nodup_cons.mp hps
    rw [List.flatMap_cons, List.count_append, ih hps, fromParents_cons edges hp]

theorem fromParents_append (edges : List (ℕ × ℕ)) {ps qs : List ℕ} (h : (ps ++ qs).Nodup) (c : ℕ) :
    fromParents edges (ps ++ qs) c = fromParents edges ps c + fromParents edges qs c := by
  rw [← count_children edges h, ← count_children edges (List.nodup_append.mp h).1,
    ← count_children edges (List.nodup_append.mp h).2.1, List.flatMap_append, List.count_append]

theorem fromParents_le (edges : List (ℕ × ℕ)) (ps : List ℕ) (c : ℕ) :
    fromParents edges ps c ≤ inDegree edges c := by
  unfold fromParents inDegree
  rw [← List.countP_eq_length_filter]
  refine List.countP_mono_left fun e _ he => ?_
  simp only [decide_eq_true_eq] at he ⊢
  exact he.2

/-- all edges of the child come from these parents -/
theorem fromParents_all (edges : List (ℕ × ℕ)) (ps : List ℕ) (c : ℕ) :
    fromParents edges ps c = inDegree edges c ↔ ∀ p, (p, c) ∈ edges → p ∈ ps := by
  induction edges with
  | nil => simp [fromParents, inDegree]
  | cons e edges ih =>
    obtain ⟨p, d⟩ := e
    have hle := fromParents_le edges ps c
    have hfrom : fromParents ((p, d) :: edges) ps c =
        fromParents edges ps c + if p ∈ ps ∧ d = c then 1 else 0 := by
      simp [fromParents, List.countP_cons]
    have hdeg : inDegree ((p, d) :: edges) c = inDegree edges c + if d = c then 1 else 0 := by
      unfold inDegree
      rw [List.filter_cons]
      by_cases hd : d = c <;> simp [hd]
    rw [hfrom, hdeg]
    by_cases hd : d = c
    · subst hd
      rw [if_pos rfl]
      by_cases hp : p ∈ ps
      · rw [if_pos ⟨hp, rfl⟩]
        constructor
        · intro h q hq
          obtain heq | hq := List.mem_cons.mp hq
          · rwa [(Prod.mk.inj heq).1]
          · exact ih.mp (by omega) q hq
        · intro h
          have := ih.mpr fun q hq => h q (List.mem_cons_of_mem _ hq)
          omega
      · rw [if_neg fun h => hp h.1]
        exact ⟨fun h => by omega, fun h => absurd (h p List.mem_cons_self) hp⟩
    · rw [if_neg fun h => hd h.2, if_neg hd]
      constructor
      · intro h q hq
        obtain heq | hq := List.mem_cons.mp hq
        · exact absurd (Prod.mk.inj heq).2.symm hd
        · exact ih.mp h q hq
      · intro h
        exact ih.mpr fun q hq => h q (List.mem_cons_of_mem _ hq)

/-! ## all layers -/

section
variable {edges : List (ℕ × ℕ)} {n : ℕ}

/-- between two layers: the vertices that are done and those of the frontier are the ones whose
parents are all done, and a degree counts the edges from the other parents -/
structure Stage (edges : List (ℕ × ℕ)) (n : ℕ) (done : List ℕ) (deg : ℕ → ℕ) (frontier : List ℕ) :
    Prop where
  nodup : (done ++ frontier).Nodup
  below : ∀ c ∈ done ++ frontier, c < n
  deg : ∀ c, deg c + fromParents edges done c = inDegree edges c
  ready : ∀ c < n, c ∈ done ++ frontier ↔ ∀ p, (p, c) ∈ edges → p ∈ done
  acc : ∀ c ∈ done, Acc (fun p c => (p, c) ∈ edges) c

theorem Stage.perm {done : List ℕ} {deg : ℕ → ℕ} {frontier layer : List ℕ}
    (h : Stage edges n done deg frontier) (hperm : layer.Perm frontier) :
    Stage edges n done deg layer := by
  have hall : (done ++ layer).Perm (done ++ frontier) := hperm.append_left done
  refine ⟨hall.nodup_iff.mpr h.nodup, fun c hc => h.below c (hall.mem_iff.mp hc), h.deg,
    fun c hc => ?_, h.acc⟩
  rw [hall.mem_iff]
  exact h.ready c hc

/-- the degrees suffice for the edges of a layer -/
theorem Stage.count_le {done : List ℕ} {deg : ℕ → ℕ} {layer : List ℕ}
    (h : Stage edges n done deg layer) (c : ℕ) :
    (layer.flatMap (children edges)).count c ≤ deg c := by
  rw [count_children edges (List.nodup_append.mp h.nodup).2.1]
  have := h.deg c
  have := fromParents_append edges h.nodup c
  have := fromParents_le edges (done ++ layer) c
  omega

theorem Stage.struck_iff {done : List ℕ} {deg : ℕ → ℕ} {layer : List ℕ}
    (h : Stage edges n done deg layer) (c : ℕ) :
    c ∈ (Kahn.strike deg (layer.flatMap (children edges))).2 ↔
      (0 < fromParents edges layer c ∧ ∀ p, (p, c) ∈ edges → p ∈ done ++ layer) := by
  obtain ⟨-, -, hmem⟩ := strike_spec _ deg h.count_le
  rw [hmem, ← fromParents_all, ← List.count_pos_iff,
    count_children edges (List.nodup_append.mp h.nodup).2.1]
  have := h.deg c
  have := fromParents_append edges h.nodup c
  omega

theorem fromParents_pos {ps : List ℕ} {c : ℕ} (h : 0 < fromParents edges ps c) :
    ∃ p ∈ ps, (p, c) ∈ edges := by
  obtain ⟨⟨p, d⟩, he, hp⟩ := List.countP_pos_iff.mp h
  simp only [decide_eq_true_eq] at hp
  obtain ⟨hp, rfl⟩ := hp
  exact ⟨p, hp, he⟩

/-- **A layer is struck: the next stage.** -/
theorem Stage.strike (hedges : ∀ e ∈ edges, e.1 < n ∧ e.2 < n) {done : List ℕ} {deg : ℕ → ℕ}
    {layer : List ℕ} (h : Stage edges n done deg layer) :
    Stage edges n (done ++ layer) (strike deg (layer.flatMap (children edges))).1
      (strike deg (layer.flatMap (children edges))).2 := by
  have hlayer : layer.Nodup := (List.nodup_append.mp h.nodup).2.1
  have hsplit := fun c => fromParents_append edges h.nodup c
  have hall := fun c => fromParents_le edges (done ++ layer) c
  have hcount := fun c => count_children edges hlayer c
  obtain ⟨hdeg, hnodup, -⟩ := strike_spec (layer.flatMap (children edges)) deg h.count_le
  -- what is struck has all its parents in `done` and the layer, one of them in the layer
  have hnext := h.struck_iff
  have hready : ∀ c < n, c ∈ done ++ layer ↔ fromParents edges done c = inDegree edges c := by
    intro c hc
    rw [h.ready c hc, fromParents_all]
  have hacc : ∀ c ∈ done ++ layer, Acc (fun p c => (p, c) ∈ edges) c := by
    intro c hc
    exact ⟨c, fun p hp => h.acc p ((h.ready c (h.below c hc)).mp hc p hp)⟩
  have hbelow : ∀ c ∈ (Kahn.strike deg (layer.flatMap (children edges))).2, c < n := by
    intro c hc
    obtain ⟨p, -, he⟩ := fromParents_pos ((hnext c).mp hc).1
    exact (hedges _ he).2
  refine ⟨?_, fun c hc => ?_, fun c => ?_, fun c hc => ?_, hacc⟩
  · refine List.nodup_append.mpr ⟨h.nodup, hnodup, fun a ha b hb hab => ?_⟩
    subst hab
    have hpos := ((hnext a).mp hb).1
    have hfull := (hready a (h.below a ha)).mp ha
    have := hsplit a
    have := hall a
    omega
  · obtain hc | hc := List.mem_append.mp hc
    · exact h.below c hc
    · exact hbelow c hc
  · rw [hdeg, hcount]
    have := h.deg c
    have := hsplit c
    have := hall c
    omega
  · rw [List.mem_append, hnext, hready c hc, ← fromParents_all]
    have := hsplit c
    have := hall c
    omega

/-- what comes next when no edge comes from outside of the layers and one from the last of them -/
theorem Stage.next {ls : List (List ℕ)} {deg : ℕ → ℕ} {layer next : List ℕ}
    (h : Stage edges n ls.flatten deg layer)
    (hperm : next.Perm (Kahn.strike deg (layer.flatMap (children edges))).2) :
    Next (fun p c => (p, c) ∈ edges) (ls ++ [layer]) next := by
  intro c hc
  obtain ⟨hpos, hall⟩ := (h.struck_iff c).mp (hperm.mem_iff.mp hc)
  refine ⟨fun p hp => ?_, fun j hj => ?_⟩
  · rw [List.flatten_append, List.flatten_singleton]
    exact hall p hp
  · obtain ⟨p, hp, he⟩ := fromParents_pos hpos
    have hlast : j = ls.length := by simpa using hj.symm
    exact ⟨p, at_snoc.mpr (Or.inr ⟨hlast, hp⟩), he⟩

/-- the layers behind the first ones are layers of the edges -/
theorem layers_layered_from (hedges : ∀ e ∈ edges, e.1 < n ∧ e.2 < n) (fuel : ℕ) :
    ∀ (ls : List (List ℕ)) (deg : ℕ → ℕ) (frontier : List ℕ),
    Stage edges n ls.flatten deg frontier → Layered (fun p c => (p, c) ∈ edges) ls →
    Next (fun p c => (p, c) ∈ edges) ls frontier →
    Layered (fun p c => (p, c) ∈ edges) (ls ++ (layers edges fuel deg frontier).1) := by
  induction fuel with
  | zero =>
    intro ls deg frontier _ hls _
    show Layered _ (ls ++ [])
    rwa [List.append_nil]
  | succ fuel ih =>
    intro ls deg frontier h hls hnext
    unfold layers
    split
    · show Layered _ (ls ++ [])
      rwa [List.append_nil]
    · have hperm : (frontier.mergeSort (· ≤ ·)).Perm frontier := List.mergeSort_perm _ _
      have hsnoc := hls.snoc fun c hc => hnext c (hperm.mem_iff.mp hc)
      have hflat : (ls ++ [frontier.mergeSort (· ≤ ·)]).flatten
          = ls.flatten ++ frontier.mergeSort (· ≤ ·) := by simp
      have hstage := (h.perm hperm).strike hedges
      rw [← hflat] at hstage
      have hrest := ih _ _ _ hstage hsnoc ((h.perm hperm).next (List.Perm.refl _))
      dsimp only
      rwa [List.append_assoc] at hrest

theorem layers_stage (hedges : ∀ e ∈ edges, e.1 < n ∧ e.2 < n) (fuel : ℕ) :
    ∀ (done : List ℕ) (deg : ℕ → ℕ) (frontier : List ℕ), Stage edges n done deg frontier →
    n ≤ fuel + done.length →
    Stage edges n (done ++ (layers edges fuel deg frontier).1.flatten)
      (layers edges fuel deg frontier).2 [] := by
  induction fuel with
  | zero =>
    intro done deg frontier h hn
    -- every vertex is done
    have hlen : (done ++ frontier).length ≤ n := by
      have hsub : (done ++ frontier).Subperm (List.range n) :=
        List.subperm_of_subset h.nodup fun c hc => List.mem_range.mpr (h.below c hc)
      have := hsub.length_le
      rwa [List.length_range] at this
    rw [List.length_append] at hlen
    have hnil : frontier = [] := List.length_eq_zero_iff.mp (by omega)
    subst hnil
    show Stage edges n (done ++ []) deg []
    rwa [List.append_nil]
  | succ fuel ih =>
    intro done deg frontier h hn
    unfold layers
    split
    · rename_i hnil
      subst hnil
      show Stage edges n (done ++ []) deg []
      rwa [List.append_nil]
    · rename_i hne
      have hperm : (frontier.mergeSort (· ≤ ·)).Perm frontier := List.mergeSort_perm _ _
      have hpos : 0 < (frontier.mergeSort (· ≤ ·)).length := by
        rw [hperm.length_eq]
        exact List.length_pos_iff.mpr hne
      have hrest := ih _ _ _ ((h.perm hperm).strike hedges) (by rw [List.length_append]; omega)
      dsimp only
      rwa [List.flatten_cons, ← List.append_assoc]

/-- the frontier at the start -/
def start (edges : List (ℕ × ℕ)) (n : ℕ) : List ℕ :=
  (List.range n).filter fun c => inDegree edges c = 0

theorem start_stage : Stage edges n [] (inDegree edges) (start edges n) := by
  have hmem : ∀ c, c ∈ start edges n ↔ c < n ∧ inDegree edges c = 0 := by
    intro c
    unfold start
    rw [List.mem_filter, List.mem_range, decide_eq_true_eq]
  have hnone : ∀ c, fromParents edges [] c = 0 := fun c => by simp [fromParents]
  refine ⟨List.nodup_range.filter _, fun c hc => ((hmem c).mp hc).1, fun c => ?_, fun c hc => ?_,
    nofun⟩
  · rw [hnone, Nat.add_zero]
  · rw [List.nil_append, hmem, ← fromParents_all, hnone]
    exact ⟨fun h => h.2.symm, fun h => ⟨hc, h.symm⟩⟩

/-- **In the end the vertices that are done are those below which no edge leads on forever.** -/
theorem Stage.mem_done (hedges : ∀ e ∈ edges, e.1 < n ∧ e.2 < n) {done : List ℕ} {deg : ℕ → ℕ}
    (h : Stage edges n done deg []) (c : ℕ) :
    c ∈ done ↔ c < n ∧ Acc (fun p c => (p, c) ∈ edges) c := by
  refine ⟨fun hc => ⟨h.below c (by simpa using hc), h.acc c hc⟩, fun ⟨hc, hacc⟩ => ?_⟩
  induction hacc with
  | intro c hbelow ih =>
    have hin := (h.ready c hc).mpr fun p hp =>
      ih p hp ⟨(hedges _ hp).1, hbelow p hp⟩ (hedges _ hp).1
    simpa using hin

/-- all vertices are done iff no edge leads on forever -/
theorem Stage.all_done (hedges : ∀ e ∈ edges, e.1 < n ∧ e.2 < n) {done : List ℕ} {deg : ℕ → ℕ}
    (h : Stage edges n done deg []) :
    done.length = n ↔ ∀ c < n, Acc (fun p c => (p, c) ∈ edges) c := by
  have hmem := h.mem_done hedges
  have hnodup : done.Nodup := by simpa using h.nodup
  have hsub : done.Subperm (List.range n) :=
    List.subperm_of_subset hnodup fun c hc => List.mem_range.mpr ((hmem c).mp hc).1
  constructor
  · intro hlen c hc
    have hperm := hsub.perm_of_length_le (by rw [List.length_range, hlen])
    exact ((hmem c).mp (hperm.mem_iff.mpr (List.mem_range.mpr hc))).2
  · intro hall
    have hperm : done.Perm (List.range n) := by
      refine (List.perm_ext_iff_of_nodup hnodup List.nodup_range).mpr fun c => ?_
      rw [hmem, List.mem_range]
      exact ⟨fun h => h.1, fun h => ⟨h, hall c h⟩⟩
    rw [hperm.length_eq, List.length_range]

/-- the stage behind all layers -/
theorem layers_end (hedges : ∀ e ∈ edges, e.1 < n ∧ e.2 < n) :
    Stage edges n (layers edges n (inDegree edges) (start edges n)).1.flatten
      (layers edges n (inDegree edges) (start edges n)).2 [] := by
  have h := layers_stage hedges n [] (inDegree edges) (start edges n) start_stage
    (Nat.le_add_right _ _)
  rwa [List.nil_append] at h

/-- **The layers have as many vertices as there are iff no edge leads on forever.** -/
theorem layers_all (hedges : ∀ e ∈ edges, e.1 < n ∧ e.2 < n) :
    (layers edges n (inDegree edges) (start edges n)).1.flatten.length = n ↔
      ∀ c < n, Acc (fun p c => (p, c) ∈ edges) c :=
  (layers_end hedges).all_done hedges

/-- no edge leads to a vertex of the frontier at the start -/
theorem start_next {frontier : List ℕ} (h : frontier.Perm (start edges n)) :
    Next (fun p c => (p, c) ∈ edges) [] frontier := by
  have hstage := start_stage.perm h
  intro c hc
  refine ⟨fun p hp => ?_, fun j hj => by cases hj⟩
  exact (hstage.ready c (hstage.below c hc)).mp hc p hp

/-- **The layers are layers of the edges.** -/
theorem layers_layered (hedges : ∀ e ∈ edges, e.1 < n ∧ e.2 < n) :
    Layered (fun p c => (p, c) ∈ edges)
      (layers edges n (inDegree edges) (start edges n)).1 :=
  layers_layered_from hedges n [] _ _ start_stage layered_nil (start_next (List.Perm.refl _))

end

end Kahn
