/-
# grep's regular expressions

`match`, `matchhere` and `matchstar` of `user/grep.c` against the language of a pattern.  A
pattern is read from left to right as items: `c*`, `.` and literal characters, with a leading
`^` and a final `$` as anchors.  Its language is the product of the languages of its items.
`match` finds exactly the texts with a substring in the language, at the beginning for `^` and
at the end for `$` (`match_iff_matches`).

A C string is the list of the bytes before its NUL.
-/
import Mathlib.Computability.Language

namespace Grep

open scoped Computability

/-- The bytes of a C string before its NUL. -/
abbrev Str := List UInt8

variable {c : UInt8} {re text : Str}

/-! ## The matcher -/

/-- The loop of `matchstar`, where `here` is `matchhere` with the rest of the pattern. -/
def starLoop (here : Str → Bool) (c : UInt8) : Str → Bool
  | [] => here []
  | a :: text => here (a :: text) || ((a == c || c == 46) && starLoop here c text)

/-- The last case of `matchhere`: one character of the pattern and one of the text. -/
def oneChar (here : Str → Bool) (c : UInt8) : Str → Bool
  | [] => false
  | a :: text => (c == 46 || c == a) && here text

/-- `matchhere`: search for `re` at the beginning of the text.  The characters 42 and 36 are
`*` and `$`. -/
def matchhere : Str → Str → Bool
  | [], _ => true
  | [c], text => if c = 36 then text.isEmpty else oneChar (matchhere []) c text
  | c :: d :: re, text =>
    if d = 42 then starLoop (matchhere re) c text else oneChar (matchhere (d :: re)) c text

/-- `matchstar`: search for `c*re` at the beginning of the text. -/
def matchstar (c : UInt8) (re text : Str) : Bool := starLoop (matchhere re) c text

/-- The loop of `match`; it must look at the empty string. -/
def matchLoop (re : Str) : Str → Bool
  | [] => matchhere re []
  | a :: text => matchhere re (a :: text) || matchLoop re text

/-- `match`; the character 94 is `^`. -/
def match_ : Str → Str → Bool
  | [], text => matchLoop [] text
  | c :: re, text => if c = 94 then matchhere re text else matchLoop (c :: re) text

/-! ## The language of a pattern -/

/-- An item of a pattern. -/
inductive Item where
  | star (c : UInt8)
  | any
  | lit (c : UInt8)

/-- A character that is not starred. -/
def Item.single (c : UInt8) : Item := if c = 46 then .any else .lit c

/-- The words of one character that `c` stands for. -/
def oneOf (c : UInt8) : Language UInt8 := {w | ∃ a, w = [a] ∧ (c = 46 ∨ a = c)}

/-- **The language of an item.** -/
def Item.lang : Item → Language UInt8
  | .star c => (oneOf c)∗
  | .any => {w | ∃ a, w = [a]}
  | .lit c => {[c]}

/-- A pattern after its `^`: items, and whether a final `$` follows. -/
structure Body where
  items : List Item
  atEnd : Bool

/-- An item before the others. -/
def Body.cons (i : Item) (b : Body) : Body := { b with items := i :: b.items }

/-- The items, read from left to right. -/
def readBody : Str → Body
  | [] => ⟨[], false⟩
  | [c] => if c = 36 then ⟨[], true⟩ else ⟨[.single c], false⟩
  | c :: d :: re =>
    if d = 42 then (readBody re).cons (.star c) else (readBody (d :: re)).cons (.single c)

/-- **The language of the items.** -/
def Body.lang (b : Body) : Language UInt8 := (b.items.map Item.lang).prod

/-- The items match at the beginning of the text. -/
def Body.MatchesHere (b : Body) (text : Str) : Prop :=
  ∃ w post, text = w ++ post ∧ w ∈ b.lang ∧ (b.atEnd = true → post = [])

/-- **A pattern matches a text**: some substring is in the language of the items, at the
beginning of the text if the pattern begins with `^`, at the end if it ends with `$`. -/
def Matches (re text : Str) : Prop :=
  ∃ pre w post, text = pre ++ w ++ post ∧ (re.head? = some 94 → pre = []) ∧
    w ∈ (readBody (if re.head? = some 94 then re.tail else re)).lang ∧
    ((readBody (if re.head? = some 94 then re.tail else re)).atEnd = true → post = [])

/-! ## Items -/

variable {w : Str} {i : Item} {b : Body} {here : Str → Bool}

/-- A starred character stands for the words over its characters. -/
theorem mem_star : w ∈ (oneOf c)∗ ↔ ∀ a ∈ w, c = 46 ∨ a = c := by
  constructor
  · intro hw a ha
    obtain ⟨l, rfl, hl⟩ := Language.mem_kstar.mp hw
    obtain ⟨y, hy, hay⟩ := List.mem_flatten.mp ha
    obtain ⟨b, rfl, hb⟩ := hl y hy
    rw [List.mem_singleton.mp hay]
    exact hb
  · intro hw
    refine Language.mem_kstar.mpr ⟨w.map fun a => [a], ?_, ?_⟩
    · simp [← List.flatMap_def]
    · intro y hy
      obtain ⟨a, ha, rfl⟩ := List.mem_map.mp hy
      exact ⟨a, rfl, hw a ha⟩

theorem mem_single : w ∈ (Item.single c).lang ↔ ∃ a, w = [a] ∧ (c = 46 ∨ c = a) := by
  unfold Item.single
  split
  · rename_i hdot
    show (∃ a, w = [a]) ↔ _
    simp [hdot]
  · rename_i hdot
    show w = [c] ↔ _
    simp [hdot]

theorem mem_cons : w ∈ (b.cons i).lang ↔ ∃ u v, u ∈ i.lang ∧ v ∈ b.lang ∧ u ++ v = w := by
  show w ∈ (i.lang :: b.items.map Item.lang).prod ↔ _
  rw [List.prod_cons, Language.mem_mul]
  constructor
  · rintro ⟨u, hu, v, hv, rfl⟩
    exact ⟨u, v, hu, hv, rfl⟩
  · rintro ⟨u, v, hu, hv, rfl⟩
    exact ⟨u, hu, v, hv, rfl⟩

/-- An item and then the rest. -/
theorem matchesHere_cons :
    (b.cons i).MatchesHere text ↔ ∃ u rest, text = u ++ rest ∧ u ∈ i.lang ∧ b.MatchesHere rest := by
  constructor
  · rintro ⟨w, post, rfl, hw, hend⟩
    obtain ⟨u, v, hu, hv, rfl⟩ := mem_cons.mp hw
    exact ⟨u, v ++ post, List.append_assoc u v post, hu, v, post, rfl, hv, hend⟩
  · rintro ⟨u, rest, rfl, hu, v, post, rfl, hv, hend⟩
    exact ⟨u ++ v, post, (List.append_assoc u v post).symm, mem_cons.mpr ⟨u, v, hu, hv, rfl⟩, hend⟩

/-! ## The matcher is exact -/

/-- The search for the shortest run of `c` finds every way to go on. -/
theorem starLoop_iff : starLoop here c text = true ↔
    ∃ u rest, text = u ++ rest ∧ u ∈ (Item.star c).lang ∧ here rest = true := by
  show _ ↔ ∃ u rest, text = u ++ rest ∧ u ∈ (oneOf c)∗ ∧ here rest = true
  simp only [mem_star]
  induction text with
  | nil =>
    constructor
    · intro h
      exact ⟨[], [], rfl, by simp, h⟩
    · rintro ⟨u, rest, heq, -, h⟩
      obtain ⟨-, rfl⟩ := List.append_eq_nil_iff.mp heq.symm
      exact h
  | cons a text ih =>
    simp only [starLoop, Bool.or_eq_true, Bool.and_eq_true, beq_iff_eq, ih]
    constructor
    · rintro (h | ⟨ha, u, rest, rfl, hu, h⟩)
      · exact ⟨[], a :: text, rfl, by simp, h⟩
      · refine ⟨a :: u, rest, rfl, fun b hb => ?_, h⟩
        rcases List.mem_cons.mp hb with rfl | hb
        · exact ha.symm
        · exact hu b hb
    · rintro ⟨u, rest, heq, hu, h⟩
      induction u with
      | nil => exact Or.inl (heq ▸ h)
      | cons b u _ =>
        obtain ⟨rfl, rfl⟩ := List.cons.inj heq
        exact Or.inr ⟨(hu a List.mem_cons_self).symm, u, rest, rfl,
          fun b hb => hu b (List.mem_cons_of_mem a hb), h⟩

theorem oneChar_iff : oneChar here c text = true ↔
    ∃ u rest, text = u ++ rest ∧ u ∈ (Item.single c).lang ∧ here rest = true := by
  simp only [mem_single]
  constructor
  · intro h
    match text, h with
    | a :: text, h =>
      simp only [oneChar, Bool.and_eq_true, Bool.or_eq_true, beq_iff_eq] at h
      exact ⟨[a], text, rfl, ⟨a, rfl, h.1⟩, h.2⟩
  · rintro ⟨u, rest, rfl, ⟨a, rfl, ha⟩, h⟩
    simp only [List.singleton_append, oneChar, Bool.and_eq_true, Bool.or_eq_true, beq_iff_eq]
    exact ⟨ha, h⟩

theorem matchesHere_nil : (⟨[], false⟩ : Body).MatchesHere text :=
  ⟨[], text, rfl, Language.mem_one [] |>.mpr rfl, fun h => by cases h⟩

theorem matchesHere_end : (⟨[], true⟩ : Body).MatchesHere text ↔ text = [] := by
  constructor
  · rintro ⟨w, post, rfl, hw, hend⟩
    rw [hend rfl, Language.mem_one w |>.mp hw]
    rfl
  · rintro rfl
    exact ⟨[], [], rfl, Language.mem_one [] |>.mpr rfl, fun _ => rfl⟩

/-- **`matchhere`** finds a word of the language at the beginning of the text. -/
theorem matchhere_iff (re : Str) : ∀ text, matchhere re text = true ↔
    (readBody re).MatchesHere text := by
  -- the patterns are taken apart as they are read
  induction re using readBody.induct with
  | case1 =>
    intro text
    exact iff_of_true rfl matchesHere_nil
  | case2 =>
    intro text
    rw [matchhere, if_pos rfl, readBody, if_pos rfl, List.isEmpty_iff, matchesHere_end]
  | case3 c hc =>
    intro text
    rw [matchhere, if_neg hc, readBody, if_neg hc, oneChar_iff]
    show _ ↔ (Body.cons (.single c) ⟨[], false⟩).MatchesHere text
    rw [matchesHere_cons]
    simp only [matchhere, matchesHere_nil]
  | case4 c re ih =>
    intro text
    rw [matchhere, if_pos rfl, readBody, if_pos rfl, starLoop_iff, matchesHere_cons]
    simp only [ih]
  | case5 c d re hd ih =>
    intro text
    rw [matchhere, if_neg hd, readBody, if_neg hd, oneChar_iff, matchesHere_cons]
    simp only [ih]

/-- The search from every position. -/
theorem matchLoop_iff : matchLoop re text = true ↔
    ∃ pre rest, text = pre ++ rest ∧ matchhere re rest = true := by
  induction text with
  | nil =>
    constructor
    · intro h
      exact ⟨[], [], rfl, h⟩
    · rintro ⟨pre, rest, heq, h⟩
      obtain ⟨-, rfl⟩ := List.append_eq_nil_iff.mp heq.symm
      exact h
  | cons a text ih =>
    simp only [matchLoop, Bool.or_eq_true, ih]
    constructor
    · rintro (h | ⟨pre, rest, rfl, h⟩)
      · exact ⟨[], a :: text, rfl, h⟩
      · exact ⟨a :: pre, rest, rfl, h⟩
    · rintro ⟨pre, rest, heq, h⟩
      match pre, heq with
      | [], heq => exact Or.inl (heq ▸ h)
      | b :: pre, heq => exact Or.inr ⟨pre, rest, (List.cons.inj heq).2, h⟩

/-- **`match` finds exactly the texts of the pattern.** -/
theorem match_iff_matches (re text : Str) : match_ re text = true ↔ Matches re text := by
  have hloop : ∀ re, (matchLoop re text = true ↔ ∃ pre w post, text = pre ++ w ++ post ∧
      w ∈ (readBody re).lang ∧ ((readBody re).atEnd = true → post = [])) := by
    intro re
    simp only [matchLoop_iff, matchhere_iff]
    constructor
    · rintro ⟨pre, rest, rfl, w, post, rfl, hw, hend⟩
      exact ⟨pre, w, post, (List.append_assoc pre w post).symm, hw, hend⟩
    · rintro ⟨pre, w, post, rfl, hw, hend⟩
      exact ⟨pre, w ++ post, List.append_assoc pre w post, w, post, rfl, hw, hend⟩
  unfold Matches
  match re with
  | [] => simpa [match_] using hloop []
  | c :: re =>
    by_cases hc : c = 94
    · simp only [match_, hc, if_true, List.head?_cons, List.tail_cons, matchhere_iff, true_imp_iff]
      constructor
      · rintro ⟨w, post, rfl, hw, hend⟩
        exact ⟨[], w, post, rfl, rfl, hw, hend⟩
      · rintro ⟨pre, w, post, rfl, rfl, hw, hend⟩
        exact ⟨w, post, rfl, hw, hend⟩
    · simpa [match_, hc] using hloop (c :: re)

/-- The pattern `^a*b$`. -/
example : match_ [94, 97, 42, 98, 36] [97, 97, 98] = true ∧
    match_ [94, 97, 42, 98, 36] [99, 97, 98] = false := by decide

end Grep
