/-
# Names, paths and directories as functions of the disk

What the loops of `kernel/fs.c` over names, paths and directory entries compute:

* `namecmp_eq_strncmp`, `dirent_eq_strncpy`: a name that fills the 14 bytes of the buffer of
  `skipelem` has no NUL, and a shorter one is followed by what an earlier element has left
  there; neither matters to `strncmp` and `strncpy`;
* `skipelem_eq_some`: `skipelem` takes off the first component of a path;
* `dirlookup_eq`, `emptyEntry_eq`, `isdirempty_eq`: the scans of a directory on a consistent
  disk return the first slot with a name, the first empty slot, and whether there is a slot
  in use after the first two.

Looking up a path is then a fold over its components (`resolve`).
-/
import Mathlib.Data.List.TakeWhile
import Xv6.FsView

namespace Fs

open Hoare

variable {sb : Superblock} {dp ip : Ip} {s t : State}
variable {D : ℕ → Dinode} {blk : ℕ → ℕ → UInt8} {d i j k : ℕ}
variable {name : List UInt8} {names : List (List UInt8)}

/-! ## Names in a buffer -/

/-- `strncmp` (`kernel/string.c`), from position `i` on. -/
def strncmp (p q : ℕ → UInt8) : ℕ → ℕ → ℤ
  | 0, _ => 0
  | n + 1, i =>
    if p i ≠ 0 ∧ p i = q i then strncmp p q n (i + 1) else ((p i).toNat : ℤ) - (q i).toNat

/-- The bytes that `strncpy` (`kernel/string.c`) stores. -/
def strncpy (t : ℕ → UInt8) : ℕ → ℕ → List UInt8
  | 0, _ => []
  | n + 1, i => if t i ≠ 0 then t i :: strncpy t n (i + 1) else t i :: List.replicate n 0

/-- The string of at most `n` bytes at position `i`. -/
def cstring (p : ℕ → UInt8) (n i : ℕ) : List UInt8 :=
  ((List.range' i n).map p).takeWhile (· ≠ 0)

theorem cstring_succ (p : ℕ → UInt8) (n i : ℕ) :
    cstring p (n + 1) i = if p i ≠ 0 then p i :: cstring p n (i + 1) else [] := by
  unfold cstring
  rw [List.range'_succ, List.map_cons, List.takeWhile_cons]
  simp

theorem strncmp_eq_zero (p q : ℕ → UInt8) (n : ℕ) :
    ∀ i, strncmp p q n i = 0 ↔ cstring p n i = cstring q n i := by
  induction n with
  | zero =>
    intro i
    exact ⟨fun _ => rfl, fun _ => rfl⟩
  | succ n ih =>
    intro i
    rw [strncmp, cstring_succ, cstring_succ]
    by_cases hnext : p i ≠ 0 ∧ p i = q i
    · rw [if_pos hnext, if_pos hnext.1, if_pos (hnext.2 ▸ hnext.1), ih, hnext.2]
      simp
    rw [if_neg hnext, sub_eq_zero, Nat.cast_inj, UInt8.toNat_inj]
    -- the first difference, or the end of both strings
    by_cases hp : p i = 0
    · rw [if_neg (not_not.mpr hp), hp]
      by_cases hq : q i = 0
      · simp [hq]
      · rw [if_pos hq]
        exact ⟨fun h => absurd h.symm hq, fun h => by cases h⟩
    · have hne : p i ≠ q i := fun heq => hnext ⟨hp, heq⟩
      rw [if_pos hp]
      by_cases hq : q i = 0
      · simp [hq, hp]
      · simp [hq, hne]

theorem strncpy_eq (t : ℕ → UInt8) (n : ℕ) : ∀ i,
    strncpy t n i = cstring t n i ++ List.replicate (n - (cstring t n i).length) 0 := by
  induction n with
  | zero =>
    intro i
    rfl
  | succ n ih =>
    intro i
    rw [strncpy, cstring_succ]
    by_cases ht : t i ≠ 0
    · rw [if_pos ht, if_pos ht, ih]
      simp
    · rw [if_neg ht, if_neg ht, not_not.mp ht]
      simp [List.replicate_succ]

/-- `skipelem` copies an element into the buffer of the caller, which holds the bytes of an
earlier one. -/
def fillName (buf : ℕ → UInt8) (elem : List UInt8) : ℕ → UInt8 :=
  if DIRSIZ ≤ elem.length then Vm.setBytes buf 0 (elem.take DIRSIZ)
  else Vm.setBytes buf 0 (elem ++ [0])

variable {p : ℕ → UInt8} {l path : List UInt8}

/-- Bytes that begin with `l`. -/
theorem map_range'_of_getD
    (h : ∀ j < l.length, p j = l.getD j 0) : (List.range' 0 l.length).map p = l := by
  apply List.ext_getElem
  · simp
  · intro j h1 h2
    rw [List.getElem_map, List.getElem_range', Nat.one_mul, Nat.zero_add, h j h2,
      List.getD_eq_getElem _ _ h2]

theorem cstring_of_end {n : ℕ} (h : ∀ j < l.length, p j = l.getD j 0) (hend : p l.length = 0)
    (hn : l.length < n) : cstring p n 0 = l.takeWhile (· ≠ 0) := by
  obtain ⟨m, rfl⟩ : ∃ m, n = l.length + (m + 1) := ⟨n - l.length - 1, by omega⟩
  unfold cstring
  rw [← List.range'_append_1, List.map_append, map_range'_of_getD h, Nat.zero_add,
    List.range'_succ, List.map_cons, hend, List.takeWhile_append]
  split_ifs with hall
  · rw [List.takeWhile_cons]
    simp only [ne_eq, not_true_eq_false, decide_false, Bool.false_eq_true, if_false,
      List.append_nil]
    exact ((List.takeWhile_prefix _).eq_of_length hall).symm
  · rfl

/-- **The buffer of `skipelem`** holds the element, whatever was there before. -/
theorem cstring_fillName (buf : ℕ → UInt8) (elem : List UInt8) :
    cstring (fillName buf elem) DIRSIZ 0 = cname elem := by
  unfold fillName cname
  by_cases hlong : DIRSIZ ≤ elem.length
  · rw [if_pos hlong]
    have hlen : (elem.take DIRSIZ).length = DIRSIZ := by
      rw [List.length_take]
      omega
    have hmap := map_range'_of_getD (p := Vm.setBytes buf 0 (elem.take DIRSIZ))
      (l := elem.take DIRSIZ) fun j hj => by
        unfold Vm.setBytes
        rw [if_pos ⟨Nat.zero_le j, by omega⟩, Nat.sub_zero]
    rw [hlen] at hmap
    unfold cstring
    rw [hmap]
  · rw [if_neg hlong, List.take_of_length_le (by omega)]
    apply cstring_of_end _ _ (by omega)
    · intro j hj
      unfold Vm.setBytes
      rw [if_pos ⟨Nat.zero_le j, by simp; omega⟩, Nat.sub_zero, List.getD_append _ _ _ _ hj]
    · unfold Vm.setBytes
      rw [if_pos ⟨Nat.zero_le _, by simp⟩, Nat.sub_zero]
      simp

theorem cstring_getD (l : List UInt8) : cstring (fun j => l.getD j 0) DIRSIZ 0 = cname l := by
  unfold cname
  by_cases hlong : DIRSIZ ≤ l.length
  · have hlen : (l.take DIRSIZ).length = DIRSIZ := by
      rw [List.length_take]
      omega
    have hmap := map_range'_of_getD (p := fun j => l.getD j 0) (l := l.take DIRSIZ) fun j hj => by
      rw [List.getD_eq_getElem _ _ hj, List.getD_eq_getElem _ _ (by omega), List.getElem_take]
    rw [hlen] at hmap
    unfold cstring
    rw [hmap]
  · rw [List.take_of_length_le (by omega)]
    exact cstring_of_end (fun _ _ => rfl) (List.getD_eq_default _ _ le_rfl) (by omega)

theorem cname_take (elem : List UInt8) : cname (elem.take DIRSIZ) = cname elem := by
  unfold cname
  rw [List.take_take, min_self]

/-- **Comparing names**: `strncmp` on the buffer and the name of an entry. -/
theorem namecmp_eq_strncmp (buf : ℕ → UInt8) (elem de : List UInt8) :
    namecmp (elem.take DIRSIZ) (deName de) =
      decide (strncmp (fillName buf elem) (fun j => (deName de).getD j 0) DIRSIZ 0 = 0) := by
  unfold namecmp
  rw [decide_eq_decide, strncmp_eq_zero, cstring_fillName, cstring_getD, cname_take]

/-- **Storing names**: `strncpy` from the buffer into an entry. -/
theorem dirent_eq_strncpy (buf : ℕ → UInt8) (inum : ℕ) (elem : List UInt8) :
    dirent inum (elem.take DIRSIZ) = [UInt8.ofNat inum, UInt8.ofNat (inum / 256)] ++
      strncpy (fillName buf elem) DIRSIZ 0 := by
  unfold dirent
  rw [strncpy_eq, cstring_fillName, cname_take]

/-! ## The components of a path -/

/-- The elements between the slashes, cut to `DIRSIZ` bytes. -/
def components (path : List UInt8) : List (List UInt8) :=
  ((path.splitOn 47).filter (· ≠ [])).map (·.take DIRSIZ)

theorem components_nil : components [] = [] := rfl

theorem components_slash (path : List UInt8) : components (47 :: path) = components path := by
  unfold components List.splitOn
  rw [List.splitOnP_cons_eq_if_modifyHead]
  simp

theorem components_dropWhile (path : List UInt8) :
    components (path.dropWhile (· = 47)) = components path := by
  induction path with
  | nil => rfl
  | cons b path ih =>
    rw [List.dropWhile_cons]
    by_cases hb : b = 47
    · subst hb
      simp only [decide_true, if_true]
      rw [ih, components_slash]
    · simp [hb]

theorem dropWhile_cases (p : UInt8 → Bool) (l : List UInt8) :
    l.dropWhile p = [] ∨ ∃ b l', l.dropWhile p = b :: l' ∧ p b = false := by
  cases h : l.dropWhile p with
  | nil => exact Or.inl rfl
  | cons b l' =>
    refine Or.inr ⟨b, l', rfl, ?_⟩
    have := List.head_dropWhile_not p (l := l) (by rw [h]; exact List.cons_ne_nil b l')
    simpa [h] using this

/-- A path that does not begin with a slash: the element up to the next slash. -/
theorem components_cons {b : UInt8} (hb : b ≠ 47) (l : List UInt8) :
    components (b :: l) = ((b :: l).takeWhile (· ≠ 47)).take DIRSIZ ::
      components ((b :: l).dropWhile (· ≠ 47)) := by
  have hne : (b :: l).takeWhile (· ≠ 47) ≠ [] := by
    rw [List.takeWhile_cons]
    simp [hb]
  have hno : ∀ c ∈ (b :: l).takeWhile (· ≠ 47), (c == 47) = false := by
    intro c hc
    have := List.mem_takeWhile_imp hc
    simpa using this
  have hsplit := List.takeWhile_append_dropWhile (p := fun b : UInt8 => decide (b ≠ 47))
    (l := b :: l)
  rcases dropWhile_cases (fun b => decide (b ≠ 47)) (b :: l) with hend | ⟨c, l', hc, h47⟩
  · rw [hend, List.append_nil] at hsplit
    rw [hend, components_nil]
    rw [hsplit] at hno ⊢
    unfold components List.splitOn
    rw [List.splitOnP_eq_singleton hno]
    simp
  · simp only [ne_eq, decide_not, Bool.not_eq_false', decide_eq_true_eq] at h47
    subst h47
    rw [hc] at hsplit
    rw [hc, components_slash]
    nth_rewrite 1 [← hsplit]
    unfold components List.splitOn
    rw [List.splitOnP_append_cons_of_forall_mem hno 47 (by decide)]
    rw [List.filter_cons_of_pos (by simpa using hne), List.map_cons]

theorem drop_takeWhile (p : UInt8 → Bool) (l : List UInt8) :
    l.drop (l.takeWhile p).length = l.dropWhile p := by
  have hsplit := List.takeWhile_append_dropWhile (p := p) (l := l)
  nth_rewrite 2 [← hsplit]
  rw [List.drop_left]

theorem skipelem_eq_none (h : skipelem path = none) : components path = [] := by
  unfold skipelem at h
  by_cases hend : path.dropWhile (· = 47) = []
  · rw [← components_dropWhile, hend, components_nil]
  · rw [if_neg hend] at h
    cases h

/-- **`skipelem`** takes off the first component.  The rest is empty exactly when it has no
more components. -/
theorem skipelem_eq_some {rest : List UInt8} (h : skipelem path = some (name, rest)) :
    components path = name :: components rest ∧ (rest = [] ↔ components rest = []) ∧
      rest.length < path.length := by
  unfold skipelem at h
  by_cases hend : path.dropWhile (· = 47) = []
  · rw [if_pos hend] at h
    cases h
  rw [if_neg hend] at h
  simp only [drop_takeWhile, Option.some.injEq, Prod.mk.injEq] at h
  obtain ⟨rfl, rfl⟩ := h
  obtain ⟨b, l, hl, hb⟩ := (dropWhile_cases (· = 47) path).resolve_left hend
  have hlen := (List.dropWhile_suffix (l := path) (· = 47)).length_le
  rw [hl] at hlen
  rw [← components_dropWhile path, hl]
  rw [decide_eq_false_iff_not] at hb
  refine ⟨?_, ?_, ?_⟩
  · rw [components_dropWhile, components_cons hb]
  · rcases dropWhile_cases (· = 47) ((b :: l).dropWhile (· ≠ 47)) with hnil | ⟨c, l', hc, h47⟩
    · rw [hnil, components_nil]
      exact ⟨fun _ => rfl, fun _ => rfl⟩
    · rw [decide_eq_false_iff_not] at h47
      rw [hc, components_cons h47]
      simp
  · have h1 := (List.dropWhile_suffix (l := (b :: l).dropWhile (· ≠ 47)) (· = 47)).length_le
    have h2 : ((b :: l).dropWhile (· ≠ 47)).length ≤ l.length := by
      rw [List.dropWhile_cons]
      simp only [ne_eq, hb, not_false_eq_true, decide_true, if_true]
      exact (List.dropWhile_suffix _).length_le
    rw [List.length_cons] at hlen
    omega

/-! ## Looking up names and paths -/

/-- The first slot of directory `d` with the name. -/
def findSlot (D : ℕ → Dinode) (blk : ℕ → ℕ → UInt8) (d : ℕ) (name : List UInt8) : Option ℕ :=
  (List.range (slots D d)).find? fun k =>
    decide (slotInum D blk d k ≠ 0 ∧ slotName D blk d k = cname name)

/-- The inode that directory `d` has under the name. -/
def lookup (D : ℕ → Dinode) (blk : ℕ → ℕ → UInt8) (d : ℕ) (name : List UInt8) : Option ℕ :=
  (findSlot D blk d name).map (slotInum D blk d)

/-- The same; an inode that is not a directory has no names. -/
def search (D : ℕ → Dinode) (blk : ℕ → ℕ → UInt8) (d : ℕ) (name : List UInt8) : Option ℕ :=
  if (D d).type = T_DIR then lookup D blk d name else none

/-- **Path resolution**: a fold over the components. -/
def resolve (D : ℕ → Dinode) (blk : ℕ → ℕ → UInt8) (i : ℕ) (names : List (List UInt8)) : Option ℕ :=
  names.foldlM (search D blk) i

/-- The inode at the end of a path, or the directory that the last component is looked up
in; in both cases with the last component. -/
def follow (D : ℕ → Dinode) (blk : ℕ → ℕ → UInt8) (parent : Bool) :
    ℕ → List (List UInt8) → List UInt8 → Option (ℕ × List UInt8)
  | i, [], last => if parent then none else some (i, last)
  | i, name :: names, _ =>
    if (D i).type ≠ T_DIR then none
    else if parent = true ∧ names = [] then some (i, name)
    else (lookup D blk i name).bind fun j => follow D blk parent j names name

/-- A directory on the way, or the one at the end, is free. -/
def Dangles (D : ℕ → Dinode) (blk : ℕ → ℕ → UInt8) (i : ℕ) (names : List (List UInt8)) : Prop :=
  ∃ pre name post, names = pre ++ name :: post ∧
    ∃ j, resolve D blk i pre = some j ∧ (D j).type = 0

theorem findSlot_some (h : findSlot D blk d name = some k) :
    k < slots D d ∧ slotInum D blk d k ≠ 0 ∧ slotName D blk d k = cname name := by
  have hk := List.find?_some h
  rw [decide_eq_true_eq] at hk
  exact ⟨List.mem_range.mp (List.mem_of_find?_eq_some h), hk⟩

theorem findSlot_none (h : findSlot D blk d name = none) (hk : k < slots D d)
    (hne : slotInum D blk d k ≠ 0) : slotName D blk d k ≠ cname name := by
  intro hname
  have := List.find?_eq_none.mp h k (List.mem_range.mpr hk)
  rw [decide_eq_true_eq] at this
  exact this ⟨hne, hname⟩

theorem lookup_some (h : lookup D blk d name = some j) :
    ∃ k, findSlot D blk d name = some k ∧ slotInum D blk d k = j :=
  Option.map_eq_some_iff.mp h

@[simp] theorem resolve_nil : resolve D blk i [] = some i := rfl

theorem resolve_cons : resolve D blk i (name :: names) =
    (search D blk i name).bind fun j => resolve D blk j names := by
  unfold resolve
  rw [List.foldlM_cons]
  rfl

theorem search_dir (h : (D i).type = T_DIR) : search D blk i name = lookup D blk i name :=
  if_pos h

theorem search_of_ne (h : (D i).type ≠ T_DIR) : search D blk i name = none := if_neg h

theorem follow_cons (parent : Bool) (last : List UInt8) :
    follow D blk parent i (name :: names) last = if (D i).type ≠ T_DIR then none
      else if parent = true ∧ names = [] then some (i, name)
      else (lookup D blk i name).bind fun j => follow D blk parent j names name := by
  rw [follow]

/-- **`namei`** in these terms. -/
theorem follow_false (names : List (List UInt8)) : ∀ i last,
    (follow D blk false i names last).map Prod.fst = resolve D blk i names := by
  induction names with
  | nil =>
    intro i last
    rfl
  | cons name names ih =>
    intro i last
    rw [follow_cons, resolve_cons]
    by_cases hdir : (D i).type = T_DIR
    · rw [if_neg (not_not.mpr hdir), if_neg (by simp), search_dir hdir]
      cases lookup D blk i name with
      | none => rfl
      | some j => exact ih j name
    · rw [if_pos hdir, search_of_ne hdir]
      rfl

/-- **`nameiparent`** in these terms. -/
theorem follow_true (names : List (List UInt8)) : ∀ i last (h : names ≠ []),
    follow D blk true i names last = (resolve D blk i names.dropLast).bind fun d =>
      if (D d).type = T_DIR then some (d, names.getLast h) else none := by
  induction names with
  | nil => exact fun _ _ h => absurd rfl h
  | cons name names ih =>
    intro i last h
    rw [follow_cons]
    by_cases hdir : (D i).type = T_DIR
    · rw [if_neg (not_not.mpr hdir)]
      cases names with
      | nil => simp [hdir]
      | cons name' names =>
        rw [if_neg (by simp), List.dropLast_cons_cons, resolve_cons, search_dir hdir]
        cases lookup D blk i name with
        | none => rfl
        | some j => exact ih j name (List.cons_ne_nil _ _)
    · rw [if_pos hdir]
      cases names with
      | nil => simp [hdir]
      | cons name' names =>
        rw [List.dropLast_cons_cons, resolve_cons, search_of_ne hdir]
        rfl

/-- The last component is looked up in the directory that the others lead to. -/
theorem resolve_getLast (h : names ≠ []) : resolve D blk i names =
    (resolve D blk i names.dropLast).bind fun d => search D blk d (names.getLast h) := by
  conv_lhs => rw [← List.dropLast_append_getLast h]
  unfold resolve
  rw [List.foldlM_append]
  cases List.foldlM (search D blk) i names.dropLast with
  | none => rfl
  | some d =>
    simp only [Option.bind_eq_bind, Option.bind_some, List.foldlM_cons, List.foldlM_nil]
    cases search D blk d (names.getLast h) <;> rfl

theorem dangles_here (h : (D i).type = 0) (name : List UInt8) (names : List (List UInt8)) :
    Dangles D blk i (name :: names) :=
  ⟨[], name, names, rfl, i, rfl, h⟩

theorem Dangles.cons (h : Dangles D blk j names) (hj : search D blk i name = some j) :
    Dangles D blk i (name :: names) := by
  obtain ⟨pre, name', post, rfl, m, hm, hfree⟩ := h
  refine ⟨name :: pre, name', post, rfl, m, ?_, hfree⟩
  rw [resolve_cons, hj]
  exact hm

/-- The prefixes of a path can be tried one after the other. -/
theorem dangles_iff : Dangles D blk i names ↔
    ∃ m < names.length, ∃ j ∈ resolve D blk i (names.take m), (D j).type = 0 := by
  constructor
  · rintro ⟨pre, name, post, rfl, j, hj, hfree⟩
    refine ⟨pre.length, by simp, j, ?_, hfree⟩
    rw [List.take_left]
    exact hj
  · rintro ⟨m, hm, j, hj, hfree⟩
    refine ⟨names.take m, names.get ⟨m, hm⟩, names.drop (m + 1), ?_, j, hj, hfree⟩
    rw [List.get_eq_getElem, ← List.drop_eq_getElem_cons hm, List.take_append_drop]

instance (D : ℕ → Dinode) (blk : ℕ → ℕ → UInt8) (i : ℕ) (names : List (List UInt8)) :
    Decidable (Dangles D blk i names) :=
  decidable_of_iff _ dangles_iff.symm

/-! ## The scans of a directory -/

/-- A directory in the inode table that can be read, of whole slots. -/
structure Listed (sb : Superblock) (dp : Ip) (s : State) : Prop where
  good : Consistent sb s
  pos : 0 < (s.itable dp).ref
  valid : (s.itable dp).valid = true
  type : (s.itable dp).d.type = T_DIR
  even : (s.itable dp).d.size % DIRENT = 0

namespace Listed

theorem clean (h : Listed sb dp s) : s.dinode (s.itable dp).inum = (s.itable dp).d :=
  h.good.clean dp h.pos h.valid

theorem inDir_iff (h : Listed sb dp s) : InDir s dp k ↔ k < slots s.dinode (s.itable dp).inum := by
  rw [lt_slots, h.clean]
  rfl

theorem entries_eq_slots (h : Listed sb dp s) :
    entries (s.itable dp).d.size = slots s.dinode (s.itable dp).inum := by
  have heven := h.even
  unfold slots entries DIRENT at *
  rw [h.clean]
  omega

/-- A slot is read as a whole. -/
theorem read (h : Listed sb dp s) (hk : k < slots s.dinode (s.itable dp).inum) :
    readi sb dp always (DIRENT * k) DIRENT s =
      .ok (DIRENT, slotBytes s.dinode s.block (s.itable dp).inum k) s := by
  have hin := h.inDir_iff.mpr hk
  obtain ⟨n, bytes, hrun, hslot, hn⟩ := readi_slot h.good h.pos h.valid (k := k) (by
    unfold InDir at hin
    omega)
  obtain ⟨-, rfl⟩ := hslot (hn hin)
  rw [hrun, hn hin]

end Listed

/-- What `dirlookup` does with the slot that it has found. -/
def fetch (inum off : ℕ) : FsM (Option (Ip × ℕ)) := do
  noteLookup inum
  let ip ← iget inum
  pure (some (ip, off))

theorem dirlookupLoop_eq (h : Listed sb dp s) (name : List UInt8) (n : ℕ) : ∀ a,
    a + n ≤ slots s.dinode (s.itable dp).inum →
    dirlookupLoop sb dp name n (DIRENT * a) s =
      match (List.range' a n).find? fun k =>
        decide (slotInum s.dinode s.block (s.itable dp).inum k ≠ 0 ∧
          slotName s.dinode s.block (s.itable dp).inum k = cname name) with
      | none => .ok none s
      | some k => fetch (slotInum s.dinode s.block (s.itable dp).inum k) (DIRENT * k) s := by
  induction n with
  | zero =>
    intro a _
    rfl
  | succ n ih =>
    intro a ha
    rw [dirlookupLoop, bind_of_ok (h.read (by omega)), List.range'_succ, List.find?_cons]
    simp only
    have hnext := ih (a + 1) (by omega)
    rw [Nat.mul_add, Nat.mul_one] at hnext
    rw [if_neg (by simp)]
    by_cases hzero : deInum (slotBytes s.dinode s.block (s.itable dp).inum a) = 0
    · rw [if_pos hzero, hnext]
      have : slotInum s.dinode s.block (s.itable dp).inum a = 0 := hzero
      simp [this]
    rw [if_neg hzero]
    have hinum : slotInum s.dinode s.block (s.itable dp).inum a ≠ 0 := hzero
    by_cases hcmp : namecmp name (deName (slotBytes s.dinode s.block (s.itable dp).inum a)) = true
    · have hname : slotName s.dinode s.block (s.itable dp).inum a = cname name :=
        namecmp_slot.mp hcmp
      rw [if_pos hcmp]
      simp only [hinum, hname, ne_eq, not_false_eq_true, and_self, decide_true]
      rfl
    · have hname : slotName s.dinode s.block (s.itable dp).inum a ≠ cname name := fun heq =>
        hcmp (namecmp_slot.mpr heq)
      rw [if_neg hcmp, hnext]
      simp [hname]

/-- **`dirlookup`** fetches the inode of the first slot with the name. -/
theorem dirlookup_eq (h : Listed sb dp s) (name : List UInt8) :
    dirlookup sb dp name s =
      match findSlot s.dinode s.block (s.itable dp).inum name with
      | none => .ok none s
      | some k => fetch (slotInum s.dinode s.block (s.itable dp).inum k) (DIRENT * k) s := by
  unfold dirlookup findSlot
  rw [inode_bind, if_neg (not_not.mpr h.type), h.entries_eq_slots,
    List.range_eq_range']
  exact dirlookupLoop_eq h name _ 0 (by omega)

/-- The first empty slot of directory `d`, or the one after the last. -/
def vacancy (D : ℕ → Dinode) (blk : ℕ → ℕ → UInt8) (d : ℕ) : ℕ :=
  ((List.range (slots D d)).find? fun k => decide (slotInum D blk d k = 0)).getD (slots D d)

theorem emptyEntryLoop_eq (h : Listed sb dp s) (n : ℕ) : ∀ a,
    a + n = slots s.dinode (s.itable dp).inum →
    emptyEntry sb dp n (DIRENT * a) s = .ok (DIRENT * (((List.range' a n).find? fun k =>
      decide (slotInum s.dinode s.block (s.itable dp).inum k = 0)).getD (a + n))) s := by
  induction n with
  | zero =>
    intro a _
    rfl
  | succ n ih =>
    intro a ha
    rw [emptyEntry, bind_of_ok (h.read (by omega)), List.range'_succ, List.find?_cons]
    simp only
    rw [if_neg (by simp)]
    by_cases hzero : deInum (slotBytes s.dinode s.block (s.itable dp).inum a) = 0
    · have hinum : slotInum s.dinode s.block (s.itable dp).inum a = 0 := hzero
      rw [if_pos hzero]
      simp only [hinum, decide_true, Option.getD_some]
      rfl
    · have hinum : slotInum s.dinode s.block (s.itable dp).inum a ≠ 0 := hzero
      have hnext := ih (a + 1) (by omega)
      rw [Nat.mul_add, Nat.mul_one, show a + 1 + n = a + (n + 1) by omega] at hnext
      rw [if_neg hzero, hnext]
      simp [hinum]

/-- **The search of `dirlink`** for an empty slot. -/
theorem emptyEntry_eq (h : Listed sb dp s) : emptyEntry sb dp (entries (s.itable dp).d.size) 0 s =
      .ok (DIRENT * vacancy s.dinode s.block (s.itable dp).inum) s := by
  unfold vacancy
  rw [h.entries_eq_slots, List.range_eq_range']
  have hloop := emptyEntryLoop_eq h (slots s.dinode (s.itable dp).inum) 0 (Nat.zero_add _)
  rwa [Nat.zero_add] at hloop

/-- **The vacant slot** is empty, or lies after the last. -/
theorem vacancy_spec (D : ℕ → Dinode) (blk : ℕ → ℕ → UInt8) (d : ℕ) :
    vacancy D blk d < slots D d ∧ slotInum D blk d (vacancy D blk d) = 0 ∨
      vacancy D blk d = slots D d ∧ ∀ k, k < slots D d → slotInum D blk d k ≠ 0 := by
  unfold vacancy
  cases hfind : (List.range (slots D d)).find? fun k => decide (slotInum D blk d k = 0) with
  | none =>
    refine Or.inr ⟨rfl, fun k hk hzero => ?_⟩
    have := List.find?_eq_none.mp hfind k (List.mem_range.mpr hk)
    exact this (decide_eq_true hzero)
  | some k =>
    have hk := List.find?_some hfind
    exact Or.inl ⟨List.mem_range.mp (List.mem_of_find?_eq_some hfind), of_decide_eq_true hk⟩

theorem isdiremptyLoop_eq (h : Listed sb dp s) (n : ℕ) : ∀ a,
    a + n ≤ slots s.dinode (s.itable dp).inum →
    isdiremptyLoop sb dp n (DIRENT * a) s = .ok ((List.range' a n).all fun k =>
      decide (slotInum s.dinode s.block (s.itable dp).inum k = 0)) s := by
  induction n with
  | zero =>
    intro a _
    rfl
  | succ n ih =>
    intro a ha
    rw [isdiremptyLoop, bind_of_ok (h.read (by omega)), List.range'_succ, List.all_cons]
    simp only
    rw [if_neg (by simp)]
    by_cases hzero : deInum (slotBytes s.dinode s.block (s.itable dp).inum a) = 0
    · have hinum : slotInum s.dinode s.block (s.itable dp).inum a = 0 := hzero
      have hnext := ih (a + 1) (by omega)
      rw [Nat.mul_add, Nat.mul_one] at hnext
      rw [if_neg (not_not.mpr hzero), hnext]
      simp [hinum]
    · have hinum : slotInum s.dinode s.block (s.itable dp).inum a ≠ 0 := hzero
      rw [if_pos hzero]
      simp [hinum]
      rfl

/-- **`isdirempty`**: no slot after the first two is in use. -/
theorem isdirempty_eq (h : Listed sb dp s) :
    isdirempty sb dp s = .ok (decide (∀ k, k < slots s.dinode (s.itable dp).inum → 2 ≤ k →
      slotInum s.dinode s.block (s.itable dp).inum k = 0)) s := by
  unfold isdirempty
  rw [inode_bind, h.entries_eq_slots, Nat.mul_comm 2 DIRENT]
  by_cases htwo : 2 ≤ slots s.dinode (s.itable dp).inum
  · rw [isdiremptyLoop_eq h _ 2 (by omega)]
    congr 1
    rw [Bool.eq_iff_iff, List.all_eq_true, decide_eq_true_eq]
    constructor
    · intro hall k hk h2
      exact of_decide_eq_true (hall k (List.mem_range'_1.mpr ⟨h2, by omega⟩))
    · intro hall k hk
      obtain ⟨h2, hlt⟩ := List.mem_range'_1.mp hk
      exact decide_eq_true (hall k (by omega) h2)
  · rw [show slots s.dinode (s.itable dp).inum - 2 = 0 by omega]
    rw [decide_eq_true fun k hk h2 => by omega]
    rfl

end Fs
