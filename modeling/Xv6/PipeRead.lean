/-
# What piperead returns, and what it takes

`piperead` as a function of the pipe it finds and of what happens while it sleeps.  Its
loop takes a byte out of the ring before it copies the byte to the user, and counts only
the copies that succeed: when `copyout` fails, the byte is gone.

The loop is what a process of the machine of `Pipe.lean` does while it holds `pi->lock`
(`readCopy_run`).
-/
import Xv6.PipeFifo

namespace Pipe

open Transition Ring

/-! ## The function -/

/-- A call that has returned: its value, the pipe when there was no need to wait any more,
the pipe at the return, and the bytes that have arrived. -/
structure Outcome where
  value : ℤ
  found : Ends
  pipe : Ends
  bytes : List UInt8

/-- The pipe after `pi->nread++`. -/
def Ends.pop (e : Ends) : Ends := { e with nread := uint (e.nread + 1) }

/-- The loop of `piperead` from byte `i` on. -/
def copyLoop (b : Dest) : ℕ → ℕ → Ends → List UInt8 → ℕ × Ends × List UInt8
  | 0, i, e, bytes => (i, e, bytes)
  | fuel + 1, i, e, bytes =>
    if e.nread = e.nwrite then (i, e, bytes)
    else if b.writable i then
      copyLoop b fuel (i + 1) e.pop (bytes ++ [e.data (e.nread % PIPESIZE)])
    else (i, e.pop, bytes)

/-- `piperead`.  The list tells what each `sleep` has led to: whether the process has been
killed meanwhile, and the pipe it finds.  `none` is a call that still sleeps. -/
def piperead (b : Dest) : List (Bool × Ends) → Bool → Ends → Option Outcome
  | sleeps, killed, e =>
    if e.nread = e.nwrite ∧ e.writeopen = true then
      if killed then some ⟨-1, e, e, []⟩
      else
        match sleeps with
        | [] => none
        | (killed, e) :: sleeps => piperead b sleeps killed e
    else
      let (i, e', bytes) := copyLoop b b.n.toNat 0 e []
      some ⟨i, e, e', bytes⟩

/-! ## The bytes in the pipe -/

/-- The fields are C `uint`s. -/
structure Ends.Sized (e : Ends) : Prop where
  nread : e.nread < 2 ^ 32
  nwrite : e.nwrite < 2 ^ 32

/-- The number of bytes in the pipe: `nwrite - nread` as a `uint`. -/
def Ends.count (e : Ends) : ℕ := (e.nwrite + 2 ^ 32 - e.nread) % 2 ^ 32

/-- The bytes in the pipe, oldest first. -/
def Ends.stored (e : Ends) : List UInt8 :=
  contents PIPESIZE e.data e.nread (e.nread + e.count)

/-- **What a read should guarantee**: `nread` advances by the number of bytes that are
reported, the bytes that have not arrived are still there, and 0 is the end of the file. -/
structure Lossless (b : Dest) (o : Outcome) : Prop where
  failed : o.value = -1 → o.pipe.nread = o.found.nread
  advanced : o.value ≠ -1 → 0 ≤ o.value ∧ o.pipe.nread = uint (o.found.nread + o.value.toNat)
  left : o.found.stored = o.bytes ++ o.pipe.stored
  eof : 0 < b.n → o.value = 0 → o.found.nread = o.found.nwrite ∧ o.found.writeopen = false

variable {b : Dest} {e : Ends}

theorem uint_of_lt {n : ℕ} (h : n < 2 ^ 32) : uint n = n := Nat.mod_eq_of_lt h

theorem uint_add (a n : ℕ) : uint (uint a + n) = uint (a + n) := Nat.mod_add_mod a _ n

@[simp] theorem Ends.pop_nread (e : Ends) : e.pop.nread = uint (e.nread + 1) := rfl

@[simp] theorem Ends.pop_nwrite (e : Ends) : e.pop.nwrite = e.nwrite := rfl

theorem Ends.stored_length (e : Ends) : e.stored.length = e.count := by
  rw [Ends.stored, length_contents]
  omega

theorem Ends.Sized.count_eq_zero (h : e.Sized) : e.count = 0 ↔ e.nread = e.nwrite := by
  have hr := h.nread
  have hw := h.nwrite
  rw [Ends.count]
  omega

theorem Ends.Sized.pop (h : e.Sized) : e.pop.Sized := by
  refine ⟨?_, h.nwrite⟩
  rw [Ends.pop_nread, uint]
  omega

theorem Ends.Sized.count_pop (h : e.Sized) (hne : e.nread ≠ e.nwrite) :
    e.count = e.pop.count + 1 := by
  have hr := h.nread
  have hw := h.nwrite
  rw [Ends.count, Ends.count, Ends.pop_nread, Ends.pop_nwrite, uint]
  omega

/-- Only the slots matter, not how often the counter has wrapped. -/
theorem contents_uint (data : ℕ → UInt8) (a n : ℕ) :
    contents PIPESIZE data (uint a) (uint a + n) = contents PIPESIZE data a (a + n) := by
  rw [contents, contents, Nat.add_sub_cancel_left, Nat.add_sub_cancel_left]
  refine List.map_congr_left fun k _ => ?_
  rw [uint, Nat.add_mod, mod_mod_slot PIPESIZE_dvd, ← Nat.add_mod]

theorem Ends.Sized.stored_pop (h : e.Sized) (hne : e.nread ≠ e.nwrite) :
    e.stored = e.data (e.nread % PIPESIZE) :: e.pop.stored := by
  have hcount := h.count_pop hne
  rw [Ends.stored, contents_pop (by omega), Ends.stored, Ends.pop, contents_uint, hcount]
  congr 2
  rw [← Ends.pop]
  omega

/-! ## The loop -/

/-- Where the user can be written to, the loop takes as many bytes as it counts. -/
theorem copyLoop_writable (b : Dest) (fuel : ℕ) : ∀ i (e : Ends) (bytes : List UInt8), e.Sized →
    (∀ j, j < e.count → j < fuel → b.writable (i + j) = true) →
    ∃ e' taken, copyLoop b fuel i e bytes = (i + min fuel e.count, e', bytes ++ taken) ∧
      e'.nread = uint (e.nread + min fuel e.count) ∧ e.stored = taken ++ e'.stored := by
  induction fuel with
  | zero =>
    intro i e bytes h _
    refine ⟨e, [], ?_, ?_, (List.nil_append _).symm⟩
    · rw [copyLoop, Nat.zero_min, Nat.add_zero, List.append_nil]
    · rw [Nat.zero_min, Nat.add_zero, uint_of_lt h.nread]
  | succ fuel ih =>
    intro i e bytes h hw
    rw [copyLoop]
    by_cases hempty : e.nread = e.nwrite
    · have hcount := h.count_eq_zero.mpr hempty
      rw [if_pos hempty, hcount, Nat.min_zero, Nat.add_zero, Nat.add_zero]
      refine ⟨e, [], ?_, ?_, (List.nil_append _).symm⟩
      · rw [List.append_nil]
      · rw [uint_of_lt h.nread]
    · have hcount := h.count_pop hempty
      have hi : b.writable i = true := hw 0 (by omega) (by omega)
      rw [if_neg hempty, if_pos hi]
      obtain ⟨e', taken, hloop, hnread, hstored⟩ := ih (i + 1) e.pop
        (bytes ++ [e.data (e.nread % PIPESIZE)]) h.pop fun j hj hfuel => by
          rw [Nat.add_assoc, Nat.add_comm 1 j]
          exact hw (j + 1) (by omega) (by omega)
      have hmin : min (fuel + 1) e.count = min fuel e.pop.count + 1 := by omega
      refine ⟨e', e.data (e.nread % PIPESIZE) :: taken, ?_, ?_, ?_⟩
      · rw [hloop, hmin, List.append_assoc]
        congr 1
        omega
      · rw [hnread, hmin, Ends.pop_nread, uint_add]
        congr 1
        omega
      · rw [h.stored_pop hempty, hstored, List.cons_append]

/-- Where `copyout` fails, the loop has taken one byte more than it counts. -/
theorem copyLoop_unwritable (b : Dest) (fuel : ℕ) : ∀ i j (e : Ends) (bytes : List UInt8), e.Sized →
    j < e.count → j < fuel → b.writable (i + j) = false →
    ∃ m e' bytes', copyLoop b fuel i e bytes = (i + m, e', bytes') ∧
      e'.nread = uint (e.nread + m + 1) := by
  induction fuel with
  | zero =>
    intro i j e bytes _ _ hj
    exact absurd hj (Nat.not_lt_zero j)
  | succ fuel ih =>
    intro i j e bytes h hcount hj hbad
    have hne : e.nread ≠ e.nwrite := fun heq => by
      rw [h.count_eq_zero.mpr heq] at hcount
      exact Nat.not_lt_zero j hcount
    rw [copyLoop, if_neg hne]
    by_cases hw : b.writable i = true
    · rw [if_pos hw]
      -- the bad address is further on
      have hpos : j ≠ 0 := by
        rintro rfl
        rw [Nat.add_zero, hw] at hbad
        cases hbad
      obtain ⟨j, rfl⟩ := Nat.exists_eq_succ_of_ne_zero hpos
      have hcount' := h.count_pop hne
      obtain ⟨m, e', bytes', hloop, hnread⟩ := ih (i + 1) j e.pop
        (bytes ++ [e.data (e.nread % PIPESIZE)]) h.pop (by omega) (by omega) (by
          rw [Nat.add_assoc, Nat.add_comm 1 j]
          exact hbad)
      refine ⟨m + 1, e', bytes', ?_, ?_⟩
      · rw [hloop]
        congr 1
        omega
      · rw [hnread, Ends.pop_nread, Nat.add_assoc, uint_add]
        congr 1
        omega
    · rw [if_neg hw]
      exact ⟨0, e.pop, bytes, rfl, rfl⟩

/-! ## The law -/

/-- No byte that the read could take meets an unwritable address. -/
def Dest.Reaches (b : Dest) (e : Ends) : Prop :=
  ∀ j : ℕ, j < e.stored.length → (j : ℤ) < b.n → b.writable j = true

/-- A call that returns has been killed with an empty pipe, or has run the loop. -/
theorem piperead_cases {sleeps : List (Bool × Ends)} : ∀ {killed : Bool} {e : Ends} {o : Outcome},
    piperead b sleeps killed e = some o →
    o.found.nread = o.found.nwrite ∧ o.value = -1 ∧ o.pipe = o.found ∧ o.bytes = [] ∨
    ¬(o.found.nread = o.found.nwrite ∧ o.found.writeopen = true) ∧
      ∃ i : ℕ, o.value = i ∧ copyLoop b b.n.toNat 0 o.found [] = (i, o.pipe, o.bytes) := by
  induction sleeps with
  | nil =>
    intro killed e o h
    rw [piperead] at h
    split at h
    · rename_i hwait
      split at h
      · cases h
        exact .inl ⟨hwait.1, rfl, rfl, rfl⟩
      · cases h
    · rename_i hwait
      cases h
      exact .inr ⟨hwait, _, rfl, rfl⟩
  | cons x sleeps ih =>
    obtain ⟨killed', e'⟩ := x
    intro killed e o h
    rw [piperead] at h
    split at h
    · rename_i hwait
      split at h
      · cases h
        exact .inl ⟨hwait.1, rfl, rfl, rfl⟩
      · exact ih h
    · rename_i hwait
      cases h
      exact .inr ⟨hwait, _, rfl, rfl⟩

/-- **`piperead` loses nothing exactly when** no byte of the pipe that it takes meets an
unwritable address, for every pipe, destination and number of bytes, and whatever happens
while it sleeps. -/
theorem lossless_iff {sleeps : List (Bool × Ends)} {killed : Bool} {o : Outcome}
    (hread : piperead b sleeps killed e = some o) (hsized : o.found.Sized) :
    Lossless b o ↔ b.Reaches o.found := by
  rcases piperead_cases hread with ⟨hempty, hvalue, hpipe, hbytes⟩ | ⟨hwait, i, hvalue, hloop⟩
  · have hcount := hsized.count_eq_zero.mpr hempty
    have hreach : b.Reaches o.found := by
      intro j hj
      rw [Ends.stored_length, hcount] at hj
      exact absurd hj (Nat.not_lt_zero j)
    refine ⟨fun _ => hreach, fun _ => ⟨?_, ?_, ?_, ?_⟩⟩
    · rw [hpipe]
      exact fun _ => rfl
    · exact fun hne => absurd hvalue hne
    · rw [hpipe, hbytes, List.nil_append]
    · rw [hvalue]
      exact fun _ h => absurd h (by decide)
  · constructor
    · intro hloss j hj hn
      by_contra hbad
      rw [Bool.not_eq_true] at hbad
      rw [Ends.stored_length] at hj
      obtain ⟨m, e', bytes', hloop', hnread⟩ := copyLoop_unwritable b b.n.toNat 0 j o.found []
        hsized hj (by omega) (by rw [Nat.zero_add]; exact hbad)
      rw [hloop, Nat.zero_add] at hloop'
      cases hloop'
      have hadv := (hloss.advanced (by rw [hvalue]; omega)).2
      rw [hnread, hvalue, uint, uint, Int.toNat_natCast] at hadv
      omega
    · intro hreach
      obtain ⟨e', taken, hloop', hnread, hstored⟩ := copyLoop_writable b b.n.toNat 0 o.found []
        hsized fun j hj hfuel => by
          rw [Nat.zero_add]
          exact hreach j (by rw [Ends.stored_length]; exact hj) (by omega)
      rw [hloop, Nat.zero_add, List.nil_append] at hloop'
      simp only [Prod.mk.injEq] at hloop'
      obtain ⟨rfl, rfl, rfl⟩ := hloop'
      refine ⟨?_, ?_, hstored, ?_⟩
      · rw [hvalue]
        exact fun h => absurd h (by omega)
      · intro _
        rw [hvalue, Int.toNat_natCast]
        exact ⟨Int.natCast_nonneg _, hnread⟩
      · intro hn hzero
        rw [hvalue] at hzero
        have hcount : o.found.count = 0 := by omega
        have hempty := hsized.count_eq_zero.mp hcount
        exact ⟨hempty, Bool.eq_false_iff.mpr fun hopen => hwait ⟨hempty, hopen⟩⟩

/-- The byte of the pipe arrives. -/
theorem lossless_iff_one_byte :
    ∃ o, piperead ⟨fun _ => true, 1⟩ [] false ⟨fun _ => 7, 0, 1, true, true⟩ = some o ∧
      o.value = 1 ∧ o.bytes = [7] ∧ Lossless ⟨fun _ => true, 1⟩ o := by
  have hread : piperead ⟨fun _ => true, 1⟩ [] false ⟨fun _ => 7, 0, 1, true, true⟩ =
      some ⟨1, ⟨fun _ => 7, 0, 1, true, true⟩, ⟨fun _ => 7, 1, 1, true, true⟩, [7]⟩ := rfl
  refine ⟨_, hread, rfl, rfl, (lossless_iff hread ⟨by decide, by decide⟩).mpr ?_⟩
  exact fun _ _ _ => rfl

/-- **A bad address loses a byte.**  The pipe holds one byte and is open; `piperead` returns
0 to a process that asked for a byte, the byte has not arrived, and the pipe is empty. -/
theorem unwritable_loses_byte :
    ∃ o, piperead ⟨fun _ => false, 1⟩ [] false ⟨fun _ => 7, 0, 1, true, true⟩ = some o ∧
      o.found.nread ≠ o.found.nwrite ∧ o.found.writeopen = true ∧
      o.value = 0 ∧ o.bytes = [] ∧ o.pipe.nread = o.pipe.nwrite ∧
      ¬Lossless ⟨fun _ => false, 1⟩ o := by
  refine ⟨⟨0, ⟨fun _ => 7, 0, 1, true, true⟩, ⟨fun _ => 7, 1, 1, true, true⟩, []⟩, rfl,
    by decide, rfl, rfl, rfl, rfl, fun h => ?_⟩
  exact absurd (h.advanced (by decide)).2 (by decide)

/-! ## The loop in the machine -/

variable {N : ℕ} {p : Fin N}

/-- **The loop of `piperead` in the machine**: a process at byte `i` that is alone with the
pipe, since it holds `pi->lock`, leaves the pipe that `copyLoop` computes, and then wakes up
the writers. -/
theorem readCopy_run (b : Dest) (fuel : ℕ) : ∀ (i : ℕ) (s : St N) (bytes : List UInt8),
    s.pc p = .readCopy b i → fuel = (b.n - i).toNat →
    ∃ k t, run step s (List.replicate k (.advance p)) = some t ∧
      t.pipe = (copyLoop b fuel i s.pipe bytes).2.1 ∧
      t.pc p = .wakeup .nwrite (List.finRange N) .release := by
  induction fuel with
  | zero =>
    intro i s bytes hpc hfuel
    have hn : ¬(i : ℤ) < b.n := by omega
    refine ⟨1, s.wake p .nwrite .release, ?_, rfl, Function.update_self _ _ _⟩
    refine run_cons_eq_some.mpr ⟨_, ?_, rfl⟩
    rw [step, advance, hpc]
    exact if_neg hn
  | succ fuel ih =>
    intro i s bytes hpc hfuel
    have hn : (i : ℤ) < b.n := by omega
    rw [copyLoop]
    by_cases hempty : s.pipe.nread = s.pipe.nwrite
    · rw [if_pos hempty]
      refine ⟨1, s.wake p .nwrite .release, ?_, rfl, Function.update_self _ _ _⟩
      refine run_cons_eq_some.mpr ⟨_, ?_, rfl⟩
      rw [step, advance, hpc]
      exact (if_pos hn).trans (if_pos hempty)
    · rw [if_neg hempty]
      by_cases hw : b.writable i = true
      · rw [if_pos hw]
        obtain ⟨k, t, hrun, hpipe, hpc'⟩ := ih (i + 1) (s.pop.goto p (.readCopy b (i + 1)))
          (bytes ++ [s.pipe.data (s.pipe.nread % PIPESIZE)]) (Function.update_self _ _ _) (by omega)
        refine ⟨k + 1, t, run_cons_eq_some.mpr ⟨_, ?_, hrun⟩, hpipe, hpc'⟩
        rw [step, advance, hpc]
        exact (if_pos hn).trans ((if_neg hempty).trans (if_pos hw))
      · rw [if_neg hw]
        refine ⟨1, s.pop.wake p .nwrite .release, ?_, rfl, Function.update_self _ _ _⟩
        refine run_cons_eq_some.mpr ⟨_, ?_, rfl⟩
        rw [step, advance, hpc]
        exact (if_pos hn).trans ((if_neg hempty).trans (if_neg hw))

/-- A pipe with one byte and its reader. -/
def reading : St 1 :=
  { start 1 fun _ => 7 with pipe.nwrite := 1, pc := fun _ => .readCopy ⟨fun _ => true, 1⟩ 0 }

theorem readCopy_run_one : ∃ k t, run step reading (List.replicate k (.advance 0)) = some t ∧
    t.pipe.nread = 1 := by
  obtain ⟨k, t, hrun, hpipe, -⟩ := readCopy_run (p := 0) _ 1 0 reading [] rfl rfl
  exact ⟨k, t, hrun, hpipe ▸ rfl⟩

end Pipe
