import Moagan.Json.Recovery

/-!
# A container behind other text (`src/llm/json_extractor.rs`)

* `Plain`                 a text without the characters that the selection reacts to
* `findFirstJsonDelim_plain`   the selection passes over such a text
* `findFirstJsonDelim_ge` what it selects is not before the place where it starts
* `extract_embedded_iff`  the container behind a plain text that ends in whitespace is extracted iff
                          the last byte of that text is whitespace as a character
* `extract_overlooks`     an ideographic space before the container hides it
-/

namespace Moagan
open Scanning JsonSyntax

/-- no opening bracket, no quote and no slash -/
def Plain (t : Text) : Prop := ∀ c ∈ t, c ≠ '{' ∧ c ≠ '[' ∧ c ≠ '"' ∧ c ≠ '/'

instance (t : Text) : Decidable (Plain t) :=
  List.decidableBAll (fun c => c ≠ '{' ∧ c ≠ '[' ∧ c ≠ '"' ∧ c ≠ '/') t

/-- empty, or the last character is whitespace -/
def EndsInWhitespace (t : Text) : Prop := ∀ c, t.getLast? = some c → isWhitespace c = true

theorem findFirstJsonDelim_plain (rest : Text) {t : Text} (h : Plain t) : ∀ prev i,
    findFirstJsonDelim (.text .code) prev i (t ++ rest) =
      findFirstJsonDelim (.text .code) (t.getLast?.or prev) (i + utf8Len t) rest := by
  induction t with
  | nil =>
    intro prev i
    rfl
  | cons c t ih =>
    intro prev i
    obtain ⟨h1, h2, h3, h4⟩ := h c List.mem_cons_self
    have hplain : Plain t := fun d hd => h d (List.mem_cons_of_mem _ hd)
    have hlast : t.getLast?.or (some c) = (c :: t).getLast?.or prev := by
      rw [List.getLast?_cons]
      cases t.getLast? <;> rfl
    rw [List.cons_append, findFirstJsonDelim_code h4, if_neg fun hb => hb.1.elim h1 h2,
      Lex.next_code_of_ne h3, ih hplain, hlast, utf8Len_cons, Nat.add_assoc]

/-- **The selection is not before the place where the scan is.** -/
theorem findFirstJsonDelim_ge (spot : Spot) (prev : Option Char) (i : Nat) (t : Text) :
    ∀ r, findFirstJsonDelim spot prev i t = some r → i ≤ r.1 := by
  induction spot, prev, i, t using findFirstJsonDelim.induct with
  | case1 prev i rest ih | case2 prev i rest ih | case3 prev i rest ih | case4 prev i rest ih =>
    intro r h
    rw [findFirstJsonDelim] at h
    have := ih r h
    omega
  | case5 m prev i c rest hline hblock hfound =>
    intro r h
    rw [findFirstJsonDelim, if_pos hfound] at h
    · exact Nat.le_of_eq (congrArg Prod.fst (Option.some.inj h))
    · exact hline
    · exact hblock
  | case6 m prev i c rest hline hblock hpass ih =>
    intro r h
    rw [findFirstJsonDelim, if_neg hpass] at h
    · have := ih r h
      omega
    · exact hline
    · exact hblock
  | case7 spot prev i c rest h1 h2 h3 h4 h5 ih =>
    intro r h
    rw [findFirstJsonDelim] at h
    · have := ih r h
      omega
    all_goals assumption
  | case8 spot prev i =>
    intro r h
    rw [findFirstJsonDelim] at h
    cases h

/-- what is extracted starts where the selection stops -/
theorem extractTolerantJson_start {input : Text} {start stop : Nat}
    (h : extractTolerantJson input = .ok (start, stop)) :
    ∃ r, findFirstJsonDelim (.text .code) none (skipBom input).1 (skipBom input).2 = some r ∧
      r.1 = start := by
  rw [extractTolerantJson_eq] at h
  split at h
  · cases h
  · rename_i start' o body hfound
    refine ⟨_, hfound, ?_⟩
    split at h
    · split at h
      · exact congrArg Prod.fst (Except.ok.inj h)
      · cases h
    · cases h

/-- over a plain text that ends in whitespace, with or without a byte order mark -/
theorem findFirstJsonDelim_bom {p : Text} (hplain : Plain p) (hws : EndsInWhitespace p) {rest : Text}
    (hrest : rest.head? ≠ some '\uFEFF') :
    findFirstJsonDelim (.text .code) none (skipBom (p ++ rest)).1 (skipBom (p ++ rest)).2 =
      findFirstJsonDelim (.text .code) p.getLast? (utf8Len p) rest := by
  have hor : p.getLast?.or none = p.getLast? := by cases p.getLast? <;> rfl
  by_cases hbom : p.head? = some '\uFEFF'
  · obtain ⟨p', rfl⟩ : ∃ p', p = '\uFEFF' :: p' := by
      cases p with
      | nil => cases hbom
      | cons c p' => exact ⟨p', by rw [Option.some.inj hbom]⟩
    have hplain' : Plain p' := fun c hc => hplain c (List.mem_cons_of_mem _ hc)
    have hlast : p'.getLast?.or none = ('\uFEFF' :: p').getLast? := by
      cases p' with
      | nil => exact absurd (hws '\uFEFF' rfl) (by decide)
      | cons c p' =>
        rw [List.getLast?_cons_cons]
        cases (c :: p').getLast? <;> rfl
    show findFirstJsonDelim (.text .code) none ('\uFEFF'.utf8Size) (p' ++ rest) = _
    rw [findFirstJsonDelim_plain rest hplain', hlast, utf8Len_cons]
  · have hhead : (p ++ rest).head? ≠ some '\uFEFF' := by
      cases p with
      | nil => exact hrest
      | cons c p => exact hbom
    rw [skipBom_of_ne hhead, findFirstJsonDelim_plain rest hplain, hor, Nat.zero_add]

/-- **The embedded container.**  Behind a plain text that is empty or ends in whitespace, and before
any other text, a container is what the extractor finds iff the last byte of the text before is
whitespace when it is read as a character. -/
theorem extract_embedded_iff {p v s : Text} (hplain : Plain p) (hws : EndsInWhitespace p)
    (hv : Derives .value v) (ho : v.head? = some '{' ∨ v.head? = some '[') :
    extractTolerantJson (p ++ v ++ s) = .ok (utf8Len p, utf8Len p + utf8Len v) ↔
      p.getLast?.all endsInByteWhitespace = true := by
  obtain ⟨f, hf⟩ : ∃ f, v.head? = some (opener f) := by
    rcases ho with h | h
    · exact ⟨.obj, h⟩
    · exact ⟨.arr, h⟩
  obtain ⟨ts, q, rfl, hvalid, hrun, hq⟩ := container_tokens hv hf
  have e : p ++ (opener f :: render ts ++ [closing f]) ++ s =
      p ++ opener f :: (render ts ++ closing f :: s) := by simp
  -- what the scan does at the opening bracket
  have hscan := findFirstJsonDelim_bom hplain hws
    (show (opener f :: (render ts ++ closing f :: s)).head? ≠ some '\uFEFF' by
      cases f <;> simp [opener])
  rw [findFirstJsonDelim_code (by cases f <;> decide)] at hscan
  rw [e]
  constructor
  · intro h
    by_contra hall
    rw [if_neg fun hb => hall hb.2] at hscan
    obtain ⟨r, hr, hstart⟩ := extractTolerantJson_start h
    rw [hscan] at hr
    have := findFirstJsonDelim_ge _ _ _ _ r hr
    have : 0 < (opener f).utf8Size := Char.utf8Size_pos _
    omega
  · intro hall
    have hopen : opener f = '{' ∨ opener f = '[' := by
      cases f
      · exact Or.inl rfl
      · exact Or.inr rfl
    rw [if_pos ⟨hopen, hall⟩] at hscan
    exact extract_found hvalid hrun hq hscan

theorem extract_embedded_iff_sample :
    extractTolerantJson ("Here it is:\n".toList ++ "\x7b\"a\": [1]\x7d".toList ++ " // ]".toList) =
        .ok (utf8Len "Here it is:\n".toList,
          utf8Len "Here it is:\n".toList + utf8Len "\x7b\"a\": [1]\x7d".toList) ↔
      "Here it is:\n".toList.getLast?.all endsInByteWhitespace = true :=
  extract_embedded_iff (by decide) (fun c hc => Option.some.inj hc ▸ rfl) derives_sample (Or.inl rfl)

/-- an ideographic space is whitespace, but its last byte is not -/
theorem extract_overlooks :
    Plain ['\u3000'] ∧ EndsInWhitespace ['\u3000'] ∧ Derives .value "\x7b\"a\": [1]\x7d".toList ∧
      extractTolerantJson (['\u3000'] ++ "\x7b\"a\": [1]\x7d".toList ++ []) ≠
        .ok (utf8Len ['\u3000'], utf8Len ['\u3000'] + utf8Len "\x7b\"a\": [1]\x7d".toList) := by
  refine ⟨by decide, fun c hc => ?_, derives_sample, by decide⟩
  obtain rfl := Option.some.inj hc
  decide

end Moagan
