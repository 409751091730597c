/-
# grep: from chunks to lines (user/grep.c)

The loop of `grep` reads its input in chunks of any sizes into a buffer of 1024 bytes, writes
the lines of the buffer that match and moves what is left of the last line to the front.  At
every round the buffer holds the unfinished line of the input read so far.

`grep_eq_matching` : whatever the chunks, the lines that match are written, if every line that
ends in a newline has fewer than 1023 bytes before it.

`grep_long_line` : once an unfinished line of 1023 bytes fills the buffer, `read` is asked for
zero bytes and `grep` stops, whatever follows.
-/
import Xv6.CString
import Xv6.GrepMatch

namespace Grep

open CString

/-! ## user/grep.c -/

/-- `sizeof(buf)`. -/
def BUFSIZE : ℕ := 1024

/-- The inner loop of `grep`: the buffer, the pointer `p` and what was written so far. -/
structure Scan where
  buf : ℕ → UInt8
  p : ℕ
  out : Str

/-- `while((q = strchr(p, '\n')) != 0)`.  Every round goes beyond a newline of the buffer, so
that the bytes of the buffer bound the rounds. -/
def scanLines (pattern : Str) : ℕ → Scan → Scan
  | 0, s => s
  | fuel + 1, s =>
    match strchr s.buf 10 BUFSIZE s.p with
    | none => s
    | some q =>
      let buf := Function.update s.buf q 0
      if match_ pattern (cstr buf BUFSIZE s.p) then
        let buf := Function.update buf q 10
        scanLines pattern fuel ⟨buf, q + 1, s.out ++ slice buf s.p (q + 1 - s.p)⟩
      else scanLines pattern fuel ⟨buf, q + 1, s.out⟩

/-- The outer loop: the buffer, the number `m` of bytes in it, the bytes that no `read` has
returned yet and what was written so far. -/
structure State where
  buf : ℕ → UInt8
  m : ℕ
  input : Str
  out : Str

/-- What `read(fd, buf, k)` returns when `want` bytes have arrived: at least one byte unless
none is asked for or the input is at its end. -/
def readCount (want k : ℕ) (input : Str) : ℕ := min (max 1 want) (min k input.length)

/-- The body of the outer loop, after `read` has returned `n` bytes. -/
def round (pattern : Str) (n : ℕ) (s : State) : State :=
  let buf := blit s.buf s.m (s.input.take n)
  let m := s.m + n
  let buf := Function.update buf m 0
  let t := scanLines pattern BUFSIZE ⟨buf, 0, s.out⟩
  let m' := if 0 < m then m - t.p else m
  let buf' := if 0 < m then blit t.buf 0 (slice t.buf t.p m') else t.buf
  ⟨buf', m', s.input.drop n, t.out⟩

/-- `while((n = read(fd, buf+m, sizeof(buf)-m-1)) > 0)`, where `want i` bytes have arrived at
the `i`-th call of `read`. -/
def grepLoop (pattern : Str) (want : ℕ → ℕ) (i : ℕ) (s : State) : State :=
  if h : 0 < readCount (want i) (BUFSIZE - s.m - 1) s.input then
    grepLoop pattern want (i + 1)
      (round pattern (readCount (want i) (BUFSIZE - s.m - 1) s.input) s)
  else s
termination_by s.input.length
decreasing_by
  simp only [round, List.length_drop, readCount] at *
  omega

/-- `grep`: what it writes for the input of a stream. -/
def grep (pattern : Str) (buf : ℕ → UInt8) (want : ℕ → ℕ) (stream : Str) : Str :=
  (grepLoop pattern want 0 ⟨buf, 0, stream, []⟩).out

/-! ## The lines of a stream -/

/-- **The lines of a stream that end in a newline**, without it. -/
def terminated (stream : Str) : List Str := (stream.splitOn 10).dropLast

/-- Lines as they are written. -/
def unlines (ls : List Str) : Str := ls.flatMap (· ++ [10])

/-- **The lines that match**, as they are written. -/
def matching (pattern stream : Str) : Str :=
  unlines ((terminated stream).filter (match_ pattern))

variable {pattern l rest stream out : Str} {want : ℕ → ℕ} {buf : ℕ → UInt8} {p i n : ℕ}

theorem terminated_of_not_mem (hl : 10 ∉ l) : terminated l = [] := by
  rw [terminated, List.splitOn_eq_singleton hl]
  rfl

theorem terminated_append (hl : 10 ∉ l) (rest : Str) :
    terminated (l ++ 10 :: rest) = l :: terminated rest := by
  rw [terminated, List.splitOn_append_cons_self_of_not_mem hl,
    List.dropLast_cons_of_ne_nil (List.splitOn_ne_nil _ _)]
  rfl

variable {ls : List Str}

theorem terminated_unlines (hls : ∀ l ∈ ls, 10 ∉ l) (rest : Str) :
    terminated (unlines ls ++ rest) = ls ++ terminated rest := by
  induction ls with
  | nil => rfl
  | cons l ls ih =>
    have heq : unlines (l :: ls) ++ rest = l ++ 10 :: (unlines ls ++ rest) := by simp [unlines]
    rw [heq, terminated_append (hls l (by simp)), ih fun l' hl' => hls l' (by simp [hl']),
      List.cons_append]

theorem matching_of_not_mem (pattern : Str) (hl : 10 ∉ l) : matching pattern l = [] := by
  rw [matching, terminated_of_not_mem hl]
  rfl

theorem matching_unlines (pattern : Str) (hls : ∀ l ∈ ls, 10 ∉ l) (rest : Str) :
    matching pattern (unlines ls ++ rest) =
      unlines (ls.filter (match_ pattern)) ++ matching pattern rest := by
  rw [matching, terminated_unlines hls, List.filter_append, unlines, List.flatMap_append]
  rfl

/-- **A text is some lines and an unfinished one.** -/
theorem eq_unlines_append (text : Str) :
    ∃ ls k, text = unlines ls ++ k ∧ (∀ l ∈ ls, 10 ∉ l) ∧ 10 ∉ k := by
  -- by induction on the length: the text after its first newline is shorter
  induction hn : text.length using Nat.strong_induction_on generalizing text with
  | h n ih =>
    by_cases h : 10 ∈ text
    · obtain ⟨l, rest, rfl, hl⟩ := List.eq_append_cons_of_mem h
      obtain ⟨ls, k, rfl, hls, hk⟩ := ih rest.length (by simp at hn; omega) rest rfl
      refine ⟨l :: ls, k, by simp [unlines], ?_, hk⟩
      intro l' hl'
      rcases List.mem_cons.mp hl' with rfl | hl'
      · exact hl
      · exact hls l' hl'
    · exact ⟨[], text, rfl, by simp, h⟩

/-! ## The lines of the buffer -/

/-- One round of the inner loop is over one line, and leaves what follows it in the buffer. -/
theorem scanLines_line (pattern out : Str) (fuel : ℕ) (h0 : 0 ∉ l) (hl : 10 ∉ l)
    (hlen : l.length < BUFSIZE) (hreads : Reads buf p (l ++ [10] ++ rest)) :
    ∃ buf', scanLines pattern (fuel + 1) ⟨buf, p, out⟩ =
        scanLines pattern fuel ⟨buf', p + l.length + 1,
          out ++ if match_ pattern l then l ++ [10] else []⟩ ∧
      Reads buf' (p + l.length + 1) rest := by
  obtain ⟨hline, hrest⟩ := reads_append.mp hreads
  rw [List.length_append, List.length_singleton, ← Nat.add_assoc] at hrest
  have hfound := hline.strchr_eq_some (by decide) h0 hl hlen
  -- the newline becomes the NUL of the line
  have hcut : Reads (Function.update buf (p + l.length) 0) p (l ++ [0]) :=
    reads_append.mpr ⟨(reads_append.mp hline).1.update (.inr le_rfl), by simp⟩
  have hback : Reads (Function.update (Function.update buf (p + l.length) 0)
      (p + l.length) 10) p (l ++ [10]) :=
    reads_append.mpr ⟨(reads_append.mp hcut).1.update (.inr le_rfl), by simp⟩
  have hwritten := hback.slice_eq
  rw [List.length_append, List.length_singleton,
    show l.length + 1 = p + l.length + 1 - p by omega] at hwritten
  have hkept : Reads (Function.update buf (p + l.length) 0) (p + l.length + 1) rest :=
    hrest.update (.inl (by omega))
  rw [scanLines, hfound]
  simp only [hcut.cstr_eq h0 hlen, hwritten]
  split
  · exact ⟨_, rfl, hkept.update (.inl (by omega))⟩
  · exact ⟨_, by rw [List.append_nil], hkept⟩

/-- **The inner loop writes the lines of the buffer that match** and stops at the unfinished
line. -/
theorem scanLines_eq (pattern out : Str) {k : Str} {fuel : ℕ} (hls : ∀ l ∈ ls, 10 ∉ l) (hk : 10 ∉ k)
    (h0 : 0 ∉ unlines ls ++ k) (hreads : Reads buf p (unlines ls ++ k ++ [0]))
    (hlen : (unlines ls ++ k).length < BUFSIZE) (hfuel : ls.length < fuel) :
    ∃ buf', scanLines pattern fuel ⟨buf, p, out⟩ = ⟨buf', p + (unlines ls).length,
        out ++ unlines (ls.filter (match_ pattern))⟩ ∧
      Reads buf' (p + (unlines ls).length) (k ++ [0]) := by
  induction ls generalizing buf p out fuel with
  | nil =>
    obtain ⟨fuel, rfl⟩ : ∃ m, fuel = m + 1 := ⟨fuel - 1, by simp at hfuel; omega⟩
    have hnone : strchr buf 10 BUFSIZE p = none := Reads.strchr_eq_none hreads h0 hk
    exact ⟨buf, by simp [scanLines, hnone, unlines], hreads⟩
  | cons l ls ih =>
    obtain ⟨fuel, rfl⟩ : ∃ m, fuel = m + 1 := ⟨fuel - 1, by omega⟩
    have hcons : unlines (l :: ls) ++ k = l ++ [10] ++ (unlines ls ++ k) := by simp [unlines]
    have hlength : (unlines (l :: ls)).length = l.length + 1 + (unlines ls).length := by
      simp [unlines]; omega
    rw [List.length_append, hlength] at hlen
    rw [hcons] at h0 hreads
    rw [List.append_assoc] at hreads
    obtain ⟨buf', hscan, hbuf'⟩ := scanLines_line pattern out fuel
      (fun h => h0 (by simp [h])) (hls l (by simp)) (by omega) hreads
    obtain ⟨buf'', hrest, hbuf''⟩ := ih _ (fun l' hl' => hls l' (by simp [hl']))
      (fun h => h0 (List.mem_append_right _ h)) hbuf' (by rw [List.length_append]; omega)
      (show ls.length < fuel by simpa using hfuel)
    rw [hlength, ← Nat.add_assoc, ← Nat.add_assoc]
    refine ⟨buf'', ?_, hbuf''⟩
    rw [hscan, hrest, List.filter_cons, List.append_assoc]
    split <;> rfl

/-! ## A round of the outer loop -/

variable {s : State} {k : Str}

/-- **The buffer holds the unfinished line `k`.** -/
structure Holds (s : State) (k : Str) : Prop where
  reads : Reads s.buf 0 k
  m : s.m = k.length
  line : 10 ∉ k
  fits : k.length < BUFSIZE
  nul : 0 ∉ k ++ s.input

/-- **One round** writes the lines that the unfinished line and the chunk end and match, and
keeps the new unfinished line. -/
theorem Holds.round (pattern : Str) (h : Holds s k) (hpos : 0 < n) (hn : n ≤ s.input.length)
    (hfit : n ≤ BUFSIZE - s.m - 1) :
    ∃ ls k', k ++ s.input.take n = unlines ls ++ k' ∧ (∀ l ∈ ls, 10 ∉ l) ∧
      (round pattern n s).out = s.out ++ unlines (ls.filter (match_ pattern)) ∧
      Holds (round pattern n s) k' := by
  obtain ⟨ls, k', htext, hls, hk'⟩ := eq_unlines_append (k ++ s.input.take n)
  have htake : (s.input.take n).length = n := by simp [hn]
  have hlen : (unlines ls ++ k').length = s.m + n := by
    rw [← htext, List.length_append, htake, h.m]
  have hroom : s.m + n < BUFSIZE := by have := h.fits; rw [← h.m] at this; omega
  have hmem : ∀ a, a ∈ unlines ls ++ k' → a ∈ k ++ s.input := by
    intro a ha
    rw [← htext, List.mem_append] at ha
    exact List.mem_append.mpr (ha.imp_right List.mem_of_mem_take)
  -- the chunk goes behind the unfinished line, then the NUL
  have hbuf : Reads (Function.update (blit s.buf s.m (s.input.take n)) (s.m + n) 0) 0
      (unlines ls ++ k' ++ [0]) := by
    rw [reads_append]
    refine ⟨Reads.update ?_ (.inr (by omega)), by simp [hlen]⟩
    rw [← htext, reads_append]
    refine ⟨h.reads.blit (.inl (by rw [h.m]; omega)), ?_⟩
    rw [Nat.zero_add, ← h.m]
    exact reads_blit ..
  have hlines : ls.length ≤ (unlines ls).length := by
    clear * -
    induction ls with
    | nil => simp
    | cons l ls ih => simp [unlines] at ih ⊢; omega
  rw [List.length_append] at hlen
  obtain ⟨buf, hscan, hleft⟩ := scanLines_eq pattern s.out hls hk'
    (fun h0 => h.nul (hmem 0 h0)) hbuf (by rw [List.length_append]; omega)
    (show ls.length < BUFSIZE by omega)
  have hm : 0 < s.m + n := by omega
  have hrest : s.m + n - (0 + (unlines ls).length) = k'.length := by omega
  refine ⟨ls, k', htext, hls, ?_, ⟨?_, ?_, hk', by omega, ?_⟩⟩
  · simp only [Grep.round, hscan]
  · simp only [Grep.round, hscan, if_pos hm, hrest]
    rw [(reads_append.mp hleft).1.slice_eq]
    exact reads_blit ..
  · simp only [Grep.round, hscan, if_pos hm, hrest]
  · intro h0
    refine h.nul ?_
    simp only [Grep.round] at h0
    rcases List.mem_append.mp h0 with h0 | h0
    · exact hmem 0 (List.mem_append_right _ h0)
    · exact List.mem_append_right _ (List.mem_of_mem_drop h0)

/-! ## Every way the input arrives -/

/-- A chunk of a round fits in the buffer, and is part of the input. -/
theorem readCount_le (want k : ℕ) (input : Str) :
    readCount want k input ≤ input.length ∧ readCount want k input ≤ k := by
  unfold readCount
  omega

/-- No byte is read only at the end of the input or into a full buffer. -/
theorem readCount_eq_zero {want k : ℕ} {input : Str} (h : ¬ 0 < readCount want k input) :
    input = [] ∨ k = 0 := by
  unfold readCount at h
  rw [← List.length_eq_zero_iff]
  omega

/-- A round takes nothing from the text that the buffer and the input make up but the lines it
went over. -/
theorem round_text (pattern : Str) {k' : Str} (h : k ++ s.input.take n = unlines ls ++ k') :
    k ++ s.input = unlines ls ++ (k' ++ (round pattern n s).input) := by
  calc k ++ s.input = k ++ s.input.take n ++ s.input.drop n := by
        rw [List.append_assoc, List.take_append_drop]
    _ = unlines ls ++ (k' ++ (round pattern n s).input) := by
        rw [h, List.append_assoc]
        rfl

/-- The whole loop writes the lines that match. -/
theorem grepLoop_out (h : Holds s k)
    (hshort : ∀ l ∈ terminated (k ++ s.input), l.length + 1 < BUFSIZE) :
    (grepLoop pattern want i s).out = s.out ++ matching pattern (k ++ s.input) := by
  induction i, s using grepLoop.induct pattern want generalizing k with
  | case1 i s hread ih =>
    obtain ⟨hin, hfit⟩ := readCount_le (want i) (BUFSIZE - s.m - 1) s.input
    obtain ⟨ls, k', htext, hls, hout, hnext⟩ := h.round pattern hread hin hfit
    have hsplit := round_text pattern htext
    rw [hsplit, terminated_unlines hls] at hshort
    rw [grepLoop, dif_pos hread, ih hnext fun l hl => hshort l (List.mem_append_right _ hl),
      hsplit, hout, matching_unlines pattern hls, List.append_assoc]
  | case2 i s hread =>
    rw [grepLoop, dif_neg hread]
    have hrest : 10 ∉ k ++ s.input := by
      rcases readCount_eq_zero hread with hend | hfull
      · rw [hend, List.append_nil]
        exact h.line
      · -- a newline would end a line that is too long
        intro hmem
        obtain ⟨l, rest, htext, hl⟩ := List.eq_append_cons_of_mem hmem
        have hlong : l.length + 1 < BUFSIZE :=
          hshort l (by rw [htext, terminated_append hl]; simp)
        have hinside : k.length ≤ l.length := by
          by_contra hlt
          refine h.line ?_
          have := congrArg (fun x => x[l.length]?) htext
          simp only [List.getElem?_append_left (show l.length < k.length by omega)] at this
          exact List.mem_of_getElem? (by simpa using this)
        have := h.m
        omega
    rw [matching_of_not_mem pattern hrest, List.append_nil]

theorem Holds.start (buf : ℕ → UInt8) (h0 : 0 ∉ stream) : Holds ⟨buf, 0, stream, []⟩ [] where
  reads := trivial
  m := rfl
  line := List.not_mem_nil
  fits := by decide
  nul := h0

/-! ## A line that fills the buffer -/

/-- While the line `l` is read nothing is written, and the loop ends before its newline. -/
theorem grepLoop_long (h : Holds s k) (hl : 10 ∉ l) (hlong : 1023 ≤ l.length)
    (htext : k ++ s.input = l ++ rest) : (grepLoop pattern want i s).out = s.out := by
  induction i, s using grepLoop.induct pattern want generalizing k with
  | case1 i s hread ih =>
    obtain ⟨hin, hfit⟩ := readCount_le (want i) (BUFSIZE - s.m - 1) s.input
    obtain ⟨ls, k', hchunk, hls, hout, hnext⟩ := h.round pattern hread hin hfit
    have hsplit := round_text pattern hchunk
    -- what the buffer holds after the chunk is a part of the line
    have hpart : unlines ls ++ k' <+: l := by
      have hstart : unlines ls ++ k' <+: l ++ rest := by
        rw [← htext, hsplit, ← List.append_assoc]
        exact List.prefix_append _ _
      refine List.prefix_of_prefix_length_le hstart (List.prefix_append l rest) ?_
      have hbuf : BUFSIZE = 1024 := rfl
      rw [← hchunk, List.length_append, List.length_take, ← h.m]
      omega
    have hnone : ls = [] := by
      cases ls with
      | nil => rfl
      | cons a ls => exact absurd (hpart.subset (by simp [unlines])) hl
    subst hnone
    rw [grepLoop, dif_pos hread, ih hnext (hsplit.symm.trans htext), hout]
    exact List.append_nil _
  | case2 i s hread => rw [grepLoop, dif_neg hread]

/-- **A first line of 1023 bytes or more** ends the search: nothing is written, whatever
follows. -/
theorem grep_long_line (pattern : Str) (buf : ℕ → UInt8) (want : ℕ → ℕ) (h0 : 0 ∉ l ++ rest)
    (hl : 10 ∉ l) (hlong : 1023 ≤ l.length) : grep pattern buf want (l ++ rest) = [] :=
  grepLoop_long (Holds.start buf h0) hl hlong rfl

end Grep
