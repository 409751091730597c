/-
# The line discipline of the console

The ring of `consoleintr` and `consoleread` is an implementation of the line editor:
the bytes in `[r, w)` are the committed bytes nobody has taken and those in `[w, e)` the
line being edited, although the three indices are stored modulo `2 ^ 32`.
`consoleintr_tracks` and `Tracks.pop` are the steps of the simulation.
-/
import Xv6.Console

namespace Console

open Ring Transition

variable {N : ℕ}

/-! ## Stored indices -/

theorem uint_lt (n : ℕ) : uint n < 2 ^ 32 := Nat.mod_lt n (by decide)

theorem slot_uint (n : ℕ) : uint n % INPUT_BUF_SIZE = n % INPUT_BUF_SIZE :=
  mod_mod_slot (by decide) n

theorem uint_uint_add (n k : ℕ) : uint (uint n + k) = uint (n + k) := Nat.mod_add_mod n _ k

variable {a b : ℕ} {x : UInt8} {bytes : List UInt8} {k : Pc} {p q : Fin N} {t s : St N}

theorem usub_uint (hab : a ≤ b) (hbd : b ≤ a + INPUT_BUF_SIZE) :
    usub (uint b) (uint a) = b - a := stored_sub (by decide) hab hbd

theorem usub_uint_succ (b : ℕ) : usub (uint (b + 1)) 1 = uint b := by
  rw [usub, uint, uint, uint]
  omega

/-- `cons.r++` and `cons.r--` cancel. -/
theorem Cons.r_unpop {c : Cons} (hr : c.r < 2 ^ 32) : usub (uint (c.r + 1)) 1 = c.r := by
  rw [usub_uint_succ]
  exact Nat.mod_eq_of_lt hr

theorem uint_eq_iff (hab : a ≤ b) (hbd : b ≤ a + INPUT_BUF_SIZE) :
    uint a = uint b ↔ a = b := empty_iff (by decide) hab hbd

/-! ## The ring and the editor -/

/-- The ring holds the queue and the line of the editor; `R`, `W` and `E` are the indices
without the wrapping. -/
structure Tracks (c : Cons) (d : Editor) (R W E : ℕ) : Prop where
  r : c.r = uint R
  w : c.w = uint W
  e : c.e = uint E
  hRW : R ≤ W
  hWE : W ≤ E
  hER : E ≤ R + INPUT_BUF_SIZE
  full : E = R + INPUT_BUF_SIZE → W = E
  queue : contents INPUT_BUF_SIZE c.buf R W = d.queue
  line : contents INPUT_BUF_SIZE c.buf W E = d.line
  plain : NL ∉ d.line

variable {c : Cons} {d : Editor} {R W E : ℕ}

section

variable (h : Tracks c d R W E)
include h

theorem Tracks.size : d.size = E - R := by
  have hRW := h.hRW
  have hWE := h.hWE
  rw [Editor.size, ← h.queue, ← h.line, length_contents, length_contents]
  omega

theorem Tracks.usub_e_r : usub c.e c.r = E - R := by
  rw [h.e, h.r]
  exact usub_uint (h.hRW.trans h.hWE) h.hER

theorem Tracks.usub_e_w : usub c.e c.w = E - W := by
  have hRW := h.hRW
  have hER := h.hER
  rw [h.e, h.w]
  exact usub_uint h.hWE (by omega)

theorem Tracks.usub_w_r : usub c.w c.r = W - R := by
  have hWE := h.hWE
  have hER := h.hER
  rw [h.w, h.r]
  exact usub_uint h.hRW (by omega)

theorem Tracks.e_eq_w : c.e = c.w ↔ W = E := by
  have hRW := h.hRW
  have hER := h.hER
  rw [h.e, h.w, eq_comm]
  exact uint_eq_iff h.hWE (by omega)

theorem Tracks.r_eq_w : c.r = c.w ↔ R = W := by
  have hWE := h.hWE
  have hER := h.hER
  rw [h.r, h.w]
  exact uint_eq_iff h.hRW (by omega)

theorem Tracks.unread_eq : c.unread = d.queue := by
  rw [Cons.unread, h.usub_w_r, h.r, ← h.queue, contents]
  refine List.map_congr_left fun k _ => ?_
  rw [uint_uint_add, slot_uint]

/-- An empty line is a line between equal indices. -/
theorem Tracks.line_eq_nil (hWE : W = E) : d.line = [] := by
  rw [← h.line, hWE, contents_self]

end

/-- The line ends in the slot before `e`. -/
theorem Tracks.line_eq (h : Tracks c d R W (E + 1)) (hWE : W ≤ E) :
    d.line = contents INPUT_BUF_SIZE c.buf W E ++ [c.buf (usub c.e 1 % INPUT_BUF_SIZE)] := by
  rw [← h.line, contents_succ hWE, h.e, usub_uint_succ, slot_uint]

/-- **Backspace** takes the last character off the line. -/
theorem Tracks.erase (h : Tracks c d R W (E + 1)) (hWE : W ≤ E) :
    Tracks { c with e := usub c.e 1 } { d with line := d.line.dropLast } R W E := by
  have hER := h.hER
  refine ⟨h.r, h.w, ?_, h.hRW, hWE, by omega, fun hfull => by omega, h.queue, ?_, ?_⟩
  · rw [h.e, usub_uint_succ]
  · rw [h.line_eq hWE, List.dropLast_concat]
  · exact fun hmem => h.plain (List.dropLast_subset _ hmem)

/-- **Kill line** takes every character off the line: there is no newline to stop at. -/
theorem killLine_tracks : ∀ (n : ℕ) (c : Cons) (d : Editor) (E : ℕ), Tracks c d R W E →
    n = E - W → Tracks (killLine n c) { d with line := [] } R W W := by
  intro n
  induction n with
  | zero =>
    intro c d E h hn
    have hWE := h.hWE
    obtain rfl : W = E := by omega
    rw [killLine, ← h.line_eq_nil rfl]
    exact h
  | succ n ih =>
    intro c d E h hn
    obtain ⟨E, rfl⟩ : ∃ E', E = E' + 1 := ⟨E - 1, by omega⟩
    have hWE : W ≤ E := by omega
    have hne : c.e ≠ c.w := fun heq => absurd (h.e_eq_w.mp heq) (by omega)
    have hplain : c.buf (usub c.e 1 % INPUT_BUF_SIZE) ≠ NL := by
      intro heq
      refine h.plain ?_
      rw [h.line_eq hWE, heq]
      exact List.mem_concat_self
    rw [killLine, if_pos ⟨hne, hplain⟩]
    exact ih _ { d with line := d.line.dropLast } E (h.erase hWE) (by omega)

/-- A character that neither ends the line nor fills the buffer. -/
theorem Tracks.store (h : Tracks c d R W E) (hx : x ≠ NL) (hlt : E + 1 < R + INPUT_BUF_SIZE) :
    Tracks (c.store x) { d with line := d.line ++ [x] } R W (E + 1) := by
  have hRW := h.hRW
  have hWE := h.hWE
  have hslot : c.e % INPUT_BUF_SIZE = E % INPUT_BUF_SIZE := by rw [h.e, slot_uint]
  refine ⟨h.r, h.w, ?_, hRW, by omega, hlt.le, fun _ => by omega, ?_, ?_, ?_⟩
  · rw [Cons.store, h.e, uint_uint_add]
  · rw [Cons.store, hslot, contents_update x hWE (by omega), h.queue]
  · rw [Cons.store, hslot, contents_push x hWE (by omega), h.line]
  · intro hmem
    rcases List.mem_append.mp hmem with hmem | hmem
    · exact h.plain hmem
    · exact hx (List.mem_singleton.mp hmem).symm

/-- A character that ends the line or fills the buffer. -/
theorem Tracks.storeCommit (h : Tracks c d R W E) (hlt : E < R + INPUT_BUF_SIZE) :
    Tracks { c.store x with w := (c.store x).e }
      (Editor.commit { d with line := d.line ++ [x] }) R (E + 1) (E + 1) := by
  have hRW := h.hRW
  have hWE := h.hWE
  have hslot : c.e % INPUT_BUF_SIZE = E % INPUT_BUF_SIZE := by rw [h.e, slot_uint]
  have he : (c.store x).e = uint (E + 1) := by rw [Cons.store, h.e, uint_uint_add]
  refine ⟨h.r, he, he, by omega, le_rfl, by omega, fun _ => rfl, ?_, contents_self _ _ _, ?_⟩
  · show contents INPUT_BUF_SIZE (c.store x).buf R (E + 1) = d.queue ++ (d.line ++ [x])
    rw [Cons.store, hslot, contents_push x (hRW.trans hWE) (by omega), ← List.append_assoc,
      ← h.queue, ← h.line, contents_append hRW hWE]
  · exact List.not_mem_nil

/-- What is done with the character that goes into the buffer. -/
theorem Tracks.insert (h : Tracks c d R W E) (hlt : E < R + INPUT_BUF_SIZE) : ∃ W' E', Tracks
      (if x = NL ∨ x = C 'D' ∨ usub (c.store x).e (c.store x).r = INPUT_BUF_SIZE then
        { c.store x with w := (c.store x).e } else c.store x)
      (d.insert x) R W' E' := by
  have hRE := h.hRW.trans h.hWE
  have hdist : usub (c.store x).e (c.store x).r = E + 1 - R := by
    show usub (uint (c.e + 1)) c.r = E + 1 - R
    rw [h.e, h.r, uint_uint_add]
    exact usub_uint (by omega) hlt
  have hsize : Editor.size { d with line := d.line ++ [x] } = E + 1 - R := by
    have hd : d.queue.length + d.line.length = E - R := h.size
    show d.queue.length + (d.line ++ [x]).length = E + 1 - R
    rw [List.length_append, List.length_singleton]
    omega
  rw [Editor.insert, hdist]
  simp only [hsize]
  split
  · exact ⟨_, _, h.storeCommit hlt⟩
  · rename_i hgo
    rw [not_or, not_or] at hgo
    exact ⟨W, E + 1, h.store hgo.1 (by have := hgo.2.2; omega)⟩

/-- **The handler follows the editing rules.** -/
theorem consoleintr_tracks (h : Tracks c d R W E) (x : UInt8) :
    ∃ W' E', Tracks (consoleintr x c).1 (d.key x) R W' E' := by
  rw [consoleintr, Editor.key]
  by_cases hP : x = C 'P'
  · rw [if_pos hP, if_pos hP]
    exact ⟨W, E, h⟩
  rw [if_neg hP, if_neg hP]
  by_cases hU : x = C 'U'
  · rw [if_pos hU, if_pos hU]
    exact ⟨W, W, killLine_tracks _ c d E h h.usub_e_w⟩
  rw [if_neg hU, if_neg hU]
  by_cases hH : x = C 'H' ∨ x = DEL
  · rw [if_pos hH, if_pos hH]
    by_cases hWE : W = E
    · rw [if_neg (not_not.mpr (h.e_eq_w.mpr hWE))]
      refine ⟨W, E, ?_⟩
      rw [h.line_eq_nil hWE, List.dropLast_nil, ← h.line_eq_nil hWE]
      exact h
    · have hlt := h.hWE.lt_of_ne hWE
      obtain ⟨E, rfl⟩ : ∃ E', E = E' + 1 := ⟨E - 1, by omega⟩
      rw [if_pos fun heq => hWE (h.e_eq_w.mp heq)]
      exact ⟨W, E, h.erase (Nat.le_of_lt_succ hlt)⟩
  rw [if_neg hH, if_neg hH, h.usub_e_r, h.size]
  by_cases hroom : x ≠ 0 ∧ E - R < INPUT_BUF_SIZE
  · rw [if_pos hroom, if_pos hroom]
    have hRE := h.hRW.trans h.hWE
    obtain ⟨W', E', hins⟩ := h.insert (x := if x = CR then NL else x) (by omega)
    refine ⟨W', E', ?_⟩
    rw [apply_ite Prod.fst]
    exact hins
  · rw [if_neg hroom, if_neg hroom]
    exact ⟨W, E, h⟩

/-- The byte that `cons.r++` passes over. -/
theorem Tracks.head (h : Tracks c d R W E) (hne : c.r ≠ c.w) :
    d.queue = c.buf (c.r % INPUT_BUF_SIZE) :: contents INPUT_BUF_SIZE c.buf (R + 1) W := by
  have hlt := h.hRW.lt_of_ne fun heq => hne (h.r_eq_w.mpr heq)
  rw [← h.queue, contents_pop hlt, h.r, slot_uint]

/-- **Taking a byte.** -/
theorem Tracks.pop (h : Tracks c d R W E) (hne : c.r ≠ c.w) :
    Tracks { c with r := uint (c.r + 1) } d.take (R + 1) W E := by
  have hlt := h.hRW.lt_of_ne fun heq => hne (h.r_eq_w.mpr heq)
  have hWE := h.hWE
  have hER := h.hER
  refine ⟨?_, h.w, h.e, hlt, hWE, by omega, fun hfull => by omega, ?_, h.line, h.plain⟩
  · rw [h.r, uint_uint_add]
  · rw [Editor.take, h.head hne]
    rfl

/-! ## The text only grows -/

theorem edit_append (l : List Event) (ev : Event) : edit (l ++ [ev]) = (edit l).apply ev := by
  rw [edit, List.foldl_append]
  rfl

theorem Editor.text_insert (d : Editor) (x : UInt8) : d.text <+: (d.insert x).text := by
  rw [Editor.insert]
  split
  · exact ⟨d.line ++ [x], by simp [Editor.text, Editor.commit]⟩
  · exact List.prefix_rfl

/-- **Committed bytes are never erased.** -/
theorem Editor.text_apply (d : Editor) (ev : Event) : d.text <+: (d.apply ev).text := by
  cases ev with
  | key x =>
    rw [Editor.apply, Editor.key]
    split_ifs
    · exact List.prefix_rfl
    · exact List.prefix_rfl
    · exact List.prefix_rfl
    · exact d.text_insert _
    · exact d.text_insert _
    · exact List.prefix_rfl
  | take =>
    have htake : d.take.text = d.text := by
      rw [Editor.take, Editor.text, Editor.text, List.append_assoc, List.take_append_drop]
    exact htake ▸ List.prefix_rfl

theorem Editor.past_key (d : Editor) (x : UInt8) : (d.key x).past = d.past := by
  rw [Editor.key, Editor.insert, Editor.commit]
  split_ifs <;> rfl

/-! ## The calls -/

/-- No byte but the last is a newline. -/
def OneLine (bytes : List UInt8) : Prop := NL ∉ bytes.dropLast

theorem OneLine.of_plain (h : NL ∉ bytes) : OneLine bytes :=
  fun hmem => h (List.dropLast_subset _ hmem)

theorem OneLine.concat (h : NL ∉ bytes) : OneLine (bytes ++ [x]) := by
  rw [OneLine, List.dropLast_concat]
  exact h

/-- A call whose destination is writable counts the bytes it has copied out. -/
def Read.Ok (rd : Read) : Prop :=
  (∀ i, rd.writable i = true) ∧ rd.target - rd.n = rd.got.length

/-- A call has copied out at most one line, and part of one while it goes on. -/
def Pc.Ok : Pc → Prop
  | .idle => True
  | .leave rd => rd.Ok ∧ OneLine rd.got
  | .enter rd | .loop rd | .wait rd | .asleep rd | .reenter rd | .take rd =>
    rd.Ok ∧ NL ∉ rd.got

/-- The process holds `cons.lock`. -/
def Pc.inside : Pc → Bool
  | .loop _ | .wait _ | .take _ | .leave _ => true
  | .idle | .enter _ | .asleep _ | .reenter _ => false

/-- The process has seen that `cons.r != cons.w`. -/
def Pc.taking : Pc → Bool
  | .take _ => true
  | _ => false

theorem Pc.inside_of_taking (h : k.taking = true) : k.inside = true := by
  cases k <;> first | rfl | cases h

@[simp] theorem Pc.inside_woken (k : Pc) : k.woken.inside = k.inside := by cases k <;> rfl

@[simp] theorem Pc.taking_woken (k : Pc) : k.woken.taking = k.taking := by cases k <;> rfl

@[simp] theorem Pc.got_woken (k : Pc) : k.woken.got = k.got := by cases k <;> rfl

theorem Pc.Ok.woken (h : k.Ok) : k.woken.Ok := by cases k <;> exact h

/-- The bytes that reached process `p`, in order. -/
def St.sentTo (s : St N) (p : Fin N) : List UInt8 :=
  (s.delivered.filter fun x => x.1 = p).map Prod.snd

/-- The bytes of the finished reads of process `p`, in order. -/
def St.readBy (s : St N) (p : Fin N) : List UInt8 :=
  ((s.reads.filter fun x => x.1 = p).map fun x => x.2.bytes).flatten

/-- A finished read returned the number of its bytes, and at most one line. -/
def Done.Ok (x : Done) : Prop := OneLine x.bytes ∧ x.result = x.bytes.length

/-! ## The invariant -/

/-- What holds of one process. -/
structure Fit (s : St N) (p : Fin N) : Prop where
  held : (s.pc p).inside = true → s.holder = some p
  ready : (s.pc p).taking = true → s.cons.r ≠ s.cons.w
  alive : s.killed p = false
  call : (s.pc p).Ok
  sent : s.sentTo p = s.readBy p ++ (s.pc p).got

structure Inv (s : St N) : Prop where
  ring : ∃ R W E, Tracks s.cons (edit s.history) R W E
  past : (edit s.history).past.filter (fun x => x ≠ C 'D') = s.delivered.map Prod.snd
  done : ∀ x ∈ s.reads, x.2.Ok
  fit : ∀ p, Fit s p

@[simp] theorem St.goto_pc_self (s : St N) (p : Fin N) (k : Pc) : (s.goto p k).pc p = k := by
  simp [St.goto]

theorem St.goto_pc_of_ne (s : St N) (k : Pc) (hqp : q ≠ p) : (s.goto p k).pc q = s.pc q := by
  simp [St.goto, hqp]

/-- A process that has moved to `k`. -/
theorem Fit.moved (hpc : t.pc p = k) (held : k.inside = true → t.holder = some p)
    (ready : k.taking = true → t.cons.r ≠ t.cons.w) (alive : t.killed p = false) (call : k.Ok)
    (sent : t.sentTo p = t.readBy p ++ k.got) : Fit t p := by
  subst hpc
  exact ⟨held, ready, alive, call, sent⟩

/-- A process that does not move stays fit when the ring and the lock are not touched
while it is inside, and no byte is handed to it. -/
theorem Fit.other (h : Fit s q) (hpc : t.pc q = s.pc q)
    (hin : (s.pc q).inside = true → t.holder = s.holder ∧ t.cons = s.cons)
    (hkilled : t.killed = s.killed) (hsent : t.sentTo q = s.sentTo q)
    (hread : t.readBy q = s.readBy q) : Fit t q where
  held := by
    intro h'
    rw [hpc] at h'
    rw [(hin h').1]
    exact h.held h'
  ready := by
    intro h'
    rw [hpc] at h'
    rw [(hin (Pc.inside_of_taking h')).2]
    exact h.ready h'
  alive := by rw [hkilled]; exact h.alive
  call := by rw [hpc]; exact h.call
  sent := by rw [hsent, hread, hpc]; exact h.sent

theorem Inv.start (N : ℕ) (buf : ℕ → UInt8) : Inv (start N buf) where
  ring := by
    refine ⟨0, 0, 0, rfl, rfl, rfl, le_rfl, le_rfl, Nat.zero_le _, fun _ => rfl, ?_, ?_, ?_⟩
    · exact contents_self _ _ 0
    · exact contents_self _ _ 0
    · exact List.not_mem_nil
  past := rfl
  done := fun x hx => absurd hx List.not_mem_nil
  fit := by
    intro p
    refine Fit.moved (k := .idle) rfl ?_ ?_ rfl trivial rfl
    · exact fun hin => absurd hin Bool.false_ne_true
    · exact fun hin => absurd hin Bool.false_ne_true

/-- Nobody is inside while the lock is free. -/
theorem Inv.outside (h : Inv s) (hfree : s.holder = none) (p : Fin N) :
    (s.pc p).inside = true → False := by
  intro hin
  have hheld := (h.fit p).held hin
  rw [hfree] at hheld
  cases hheld

/-- The other processes are outside while `p` holds the lock. -/
theorem Inv.alone (h : Inv s) (hp : s.holder = some p) :
    ∀ q ≠ p, (s.pc q).inside = true → False := by
  intro q hqp hin
  have hq := ((h.fit q).held hin).symm.trans hp
  exact hqp (Option.some.inj hq)

/-- A process moves on without touching the ring. -/
theorem Inv.move (h : Inv s) {o : Option (Fin N)} (hk : k.inside = true → o = some p)
    (hq : ∀ q ≠ p, (s.pc q).inside = true → o = s.holder)
    (htake : k.taking = true → s.cons.r ≠ s.cons.w) (hok : k.Ok)
    (hgot : k.got = (s.pc p).got) : Inv { s.goto p k with holder := o } := by
  refine ⟨h.ring, h.past, h.done, fun q => ?_⟩
  by_cases hqp : q = p
  · subst hqp
    refine Fit.moved (s.goto_pc_self q k) hk htake (h.fit q).alive hok ?_
    exact hgot ▸ (h.fit q).sent
  · refine (h.fit q).other (s.goto_pc_of_ne k hqp) (fun hin => ?_) rfl rfl rfl
    exact ⟨hq q hqp hin, rfl⟩

/-- The handler gets a character. -/
theorem Inv.intr (h : Inv s) (ht : step s (.intr x) = some t) : Inv t := by
  rw [step] at ht
  split at ht
  · rename_i hfree
    cases ht
    obtain ⟨R, W, E, hring⟩ := h.ring
    obtain ⟨W', E', hring'⟩ := consoleintr_tracks hring x
    refine ⟨⟨R, W', E', ?_⟩, ?_, h.done, fun p => ?_⟩
    · rw [edit_append]
      exact hring'
    · rw [edit_append, Editor.apply, Editor.past_key]
      exact h.past
    · have hp := h.fit p
      by_cases hwake : (consoleintr x s.cons).2 = true
      · simp only [hwake, if_true]
        refine ⟨?_, ?_, hp.alive, hp.call.woken, ?_⟩
        · intro hin
          rw [Pc.inside_woken] at hin
          exact absurd (h.outside hfree p hin) id
        · intro hin
          rw [Pc.taking_woken] at hin
          exact absurd (h.outside hfree p (Pc.inside_of_taking hin)) id
        · rw [Pc.got_woken]
          exact hp.sent
      · refine hp.other ?_ (fun hin => (h.outside hfree p hin).elim) rfl rfl rfl
        simp only [hwake]
        rfl
  · cases ht

/-- A finished call leaves its bytes behind. -/
theorem Inv.ret (h : Inv s) (hp : s.holder = some p) {result : ℤ} (hbytes : (s.pc p).got = bytes)
    (hdone : Done.Ok ⟨bytes, result⟩) : Inv (s.ret p bytes result) := by
  refine ⟨h.ring, h.past, fun x hx => ?_, fun q => ?_⟩
  · rcases List.mem_append.mp hx with hx | hx
    · exact h.done x hx
    · rw [List.mem_singleton.mp hx]
      exact hdone
  · by_cases hqp : q = p
    · subst hqp
      refine Fit.moved (s.goto_pc_self q .idle) ?_ ?_ (h.fit q).alive trivial ?_
      · exact fun hin => absurd hin Bool.false_ne_true
      · exact fun hin => absurd hin Bool.false_ne_true
      · refine (h.fit q).sent.trans ?_
        rw [hbytes, show Pc.idle.got = [] from rfl]
        simp [St.readBy, St.ret]
    · have hread : (s.ret p bytes result).readBy q = s.readBy q := by
        simp [St.readBy, St.ret, Ne.symm hqp]
      refine (h.fit q).other (s.goto_pc_of_ne .idle hqp) (fun hin => ?_) rfl rfl hread
      exact (h.alone hp q hqp hin).elim

/-- A byte is taken out of the ring and, unless it is a `^D`, handed to `p`. -/
theorem Inv.pop (h : Inv s) (hp : s.holder = some p) (hne : s.cons.r ≠ s.cons.w)
    (hk : k.taking = false) (hok : k.Ok) (hx : s.cons.buf (s.cons.r % INPUT_BUF_SIZE) = x)
    {l : List UInt8} (hl : [x].filter (fun x => x ≠ C 'D') = l) (hgot : k.got = (s.pc p).got ++ l)
    {del : List (Fin N × UInt8)} (hdel : del = s.delivered ++ l.map (Prod.mk p)) :
    Inv { s.pop.goto p k with delivered := del } := by
  subst hdel
  obtain ⟨R, W, E, hring⟩ := h.ring
  have hpast : (edit s.history).take.past = (edit s.history).past ++ [x] := by
    rw [Editor.take, hring.head hne, hx]
    rfl
  refine ⟨⟨R + 1, W, E, ?_⟩, ?_, h.done, fun q => ?_⟩
  · show Tracks { s.cons with r := uint (s.cons.r + 1) } (edit (s.history ++ [.take])) _ _ _
    rw [edit_append]
    exact hring.pop hne
  · show (edit (s.history ++ [.take])).past.filter _ = (s.delivered ++ l.map (Prod.mk p)).map _
    rw [edit_append, Editor.apply, hpast, List.filter_append, h.past, hl, List.map_append,
      List.map_map]
    congr 1
    exact (List.map_id l).symm
  · by_cases hqp : q = p
    · subst hqp
      refine Fit.moved (s.pop.goto_pc_self q k) (fun _ => hp) ?_ (h.fit q).alive hok ?_
      · exact fun htake => absurd (hk.symm.trans htake) Bool.false_ne_true
      · have hsent := (h.fit q).sent
        rw [hgot, ← List.append_assoc]
        refine Eq.trans ?_ (congrArg (· ++ l) hsent)
        simp [St.sentTo, List.filter_map, Function.comp_def]
    · have hsent : St.sentTo { s.pop.goto p k with
          delivered := s.delivered ++ l.map (Prod.mk p) } q = s.sentTo q := by
        simp [St.sentTo, List.filter_map, Function.comp_def, Ne.symm hqp]
      refine (h.fit q).other (s.pop.goto_pc_of_ne k hqp) (fun hin => ?_) rfl hsent rfl
      exact (h.alone hp q hqp hin).elim

theorem Inv.r_lt (h : Inv s) : s.cons.r < 2 ^ 32 := by
  obtain ⟨R, W, E, hring⟩ := h.ring
  rw [hring.r]
  exact uint_lt R

/-- The body of the loop of `consoleread`. -/
theorem Inv.takeByte (h : Inv s) {rd : Read} (hpc : s.pc p = .take rd) : Inv (takeByte s p rd) := by
  have hin : (s.pc p).inside = true := by rw [hpc]; rfl
  have hp := (h.fit p).held hin
  have hne := (h.fit p).ready (by rw [hpc]; rfl)
  have hcall := (h.fit p).call
  rw [hpc] at hcall
  obtain ⟨⟨hwritable, hcount⟩, hplain⟩ := hcall
  have hleave : (Pc.leave rd).Ok := ⟨⟨hwritable, hcount⟩, OneLine.of_plain hplain⟩
  have hgot : (s.pc p).got = rd.got := by rw [hpc]; rfl
  generalize hx : s.cons.buf (s.cons.r % INPUT_BUF_SIZE) = x
  rw [Console.takeByte, hx]
  by_cases hD : x = C 'D'
  · simp only [if_pos hD]
    split
    · -- the `^D` stays for the next read
      have hsame : s.unpop = s := by rw [St.unpop, Cons.r_unpop h.r_lt, St.setCons]
      rw [hsame]
      exact h.move (fun _ => hp) (fun _ _ _ => rfl) (fun htake => by cases htake) hleave hgot.symm
    · refine h.pop hp hne rfl hleave hx (l := []) ?_ ?_ (List.append_nil _).symm
      · rw [hD]; rfl
      · rw [hgot, List.append_nil]; rfl
  · simp only [if_neg hD, hwritable, if_true]
    have hfilter : [x].filter (fun x => x ≠ C 'D') = [x] := by simp [hD]
    have hcount' : rd.target - (rd.n - 1) = (rd.got ++ [x]).length := by
      rw [List.length_append, List.length_singleton]
      omega
    split
    · have hok : (Pc.leave { rd with n := rd.n - 1, got := rd.got ++ [x] }).Ok :=
        ⟨⟨hwritable, hcount'⟩, OneLine.concat hplain⟩
      refine h.pop hp hne rfl hok hx hfilter ?_ rfl
      rw [hgot]; rfl
    · rename_i hNL
      have hplain' : NL ∉ rd.got ++ [x] := by
        intro hmem
        rcases List.mem_append.mp hmem with hmem | hmem
        · exact hplain hmem
        · exact hNL (List.mem_singleton.mp hmem).symm
      have hok : (Pc.loop { rd with n := rd.n - 1, got := rd.got ++ [x] }).Ok :=
        ⟨⟨hwritable, hcount'⟩, hplain'⟩
      refine h.pop hp hne rfl hok hx hfilter ?_ rfl
      rw [hgot]; rfl

/-- The next step of a process. -/
theorem Inv.advance (h : Inv s) (ht : advance s p = some t) : Inv t := by
  have hfit := h.fit p
  obtain ⟨hheld, hready, halive, hcall, -⟩ := hfit
  rw [Console.advance] at ht
  cases hpc : s.pc p with
  | idle =>
    rw [hpc] at ht
    cases ht
  | asleep rd =>
    rw [hpc] at ht
    cases ht
  | enter rd =>
    rw [hpc] at ht hcall
    simp only at ht
    split at ht
    · rename_i hfree
      cases ht
      refine h.move (fun _ => rfl) (fun q _ hin => (h.outside hfree q hin).elim) ?_ hcall ?_
      · exact fun htake => by cases htake
      · rw [hpc]; rfl
    · cases ht
  | reenter rd =>
    rw [hpc] at ht hcall
    simp only at ht
    split at ht
    · rename_i hfree
      cases ht
      refine h.move (fun _ => rfl) (fun q _ hin => (h.outside hfree q hin).elim) ?_ hcall ?_
      · exact fun htake => by cases htake
      · rw [hpc]; rfl
    · cases ht
  | loop rd =>
    have hp := hheld (by rw [hpc]; rfl)
    rw [hpc] at ht hcall
    simp only at ht
    split at ht
    · cases ht
      refine h.move (fun _ => hp) (fun _ _ _ => rfl) ?_ hcall (by rw [hpc]; rfl)
      exact fun htake => by cases htake
    · cases ht
      refine h.move (fun _ => hp) (fun _ _ _ => rfl) ?_ ?_ (by rw [hpc]; rfl)
      · exact fun htake => by cases htake
      · exact ⟨hcall.1, OneLine.of_plain hcall.2⟩
  | wait rd =>
    have hp := hheld (by rw [hpc]; rfl)
    rw [hpc] at ht hcall
    simp only [halive] at ht
    split at ht
    · cases ht
      refine h.move ?_ (fun q hqp hin => (h.alone hp q hqp hin).elim) ?_ hcall (by rw [hpc]; rfl)
      · exact fun hin => by cases hin
      · exact fun htake => by cases htake
    · rename_i hne
      cases ht
      exact h.move (fun _ => hp) (fun _ _ _ => rfl) (fun _ => hne) hcall (by rw [hpc]; rfl)
  | take rd =>
    rw [hpc] at ht
    cases ht
    exact h.takeByte hpc
  | leave rd =>
    have hp := hheld (by rw [hpc]; rfl)
    rw [hpc] at ht hcall
    cases ht
    exact h.ret hp (by rw [hpc]; rfl) ⟨hcall.2, hcall.1.2⟩

/-! ## Runs -/

/-- Nobody is killed, and every destination is writable. -/
def Undisturbed (_ : St N) : Act N → Prop
  | .kill _ => False
  | .call _ _ writable => ∀ i, writable i = true
  | .intr _ | .advance _ => True

theorem Inv.step {a : Act N} (h : Inv s) (ha : Undisturbed s a)
    (ht : step s a = some t) : Inv t := by
  cases a with
  | intr x => exact h.intr ht
  | call p n writable =>
    rw [Console.step] at ht
    split at ht
    · rename_i hidle
      cases ht
      have hpc : s.pc p = .idle := by
        cases hpc : s.pc p <;> rw [hpc] at hidle <;> first | rfl | cases hidle
      refine h.move ?_ (fun _ _ _ => rfl) ?_ ⟨⟨ha, ?_⟩, List.not_mem_nil⟩ (by rw [hpc]; rfl)
      · exact fun hin => by cases hin
      · exact fun htake => by cases htake
      · exact sub_self n
    · cases ht
  | advance p => exact h.advance ht
  | kill p => exact ha.elim

/-- The committed text and the bytes handed out only grow. -/
def Grows (s t : St N) : Prop :=
  (edit s.history).text <+: (edit t.history).text ∧ s.delivered <+: t.delivered

theorem Grows.refl (s : St N) : Grows s s := ⟨List.prefix_rfl, List.prefix_rfl⟩

theorem Grows.trans {u : St N} (h : Grows s t) (h' : Grows t u) : Grows s u :=
  ⟨h.1.trans h'.1, h.2.trans h'.2⟩

/-- One event, with bytes handed out or not. -/
theorem Grows.event {ev : Event} (h : t.history = s.history ++ [ev])
    (hdel : s.delivered <+: t.delivered) : Grows s t := by
  refine ⟨?_, hdel⟩
  rw [h, edit_append]
  exact (edit s.history).text_apply ev

/-- Nothing has happened to the ring. -/
theorem Grows.idle (h : t.history = s.history) (hdel : t.delivered = s.delivered) : Grows s t := by
  rw [Grows, h, hdel]
  exact Grows.refl s

theorem Grows.goto (s : St N) (p : Fin N) (k : Pc) : Grows s (s.goto p k) := Grows.idle rfl rfl

theorem Grows.setCons (s : St N) (c : Cons) : Grows s (s.setCons c) := Grows.idle rfl rfl

theorem takeByte_grows (s : St N) (p : Fin N) (rd : Read) : Grows s (takeByte s p rd) := by
  rw [takeByte]
  dsimp only
  split
  · split
    · rw [St.unpop]
      exact (Grows.setCons s _).trans (Grows.goto _ p _)
    · exact Grows.event rfl List.prefix_rfl
  · split
    · exact Grows.event rfl (List.prefix_append _ _)
    · exact Grows.event rfl List.prefix_rfl

theorem step_grows {a : Act N} (ht : step s a = some t) : Grows s t := by
  cases a with
  | intr x =>
    rw [step] at ht
    split at ht
    · cases ht
      exact Grows.event rfl List.prefix_rfl
    · cases ht
  | call p n writable =>
    rw [step] at ht
    split at ht
    · cases ht
      exact Grows.idle rfl rfl
    · cases ht
  | advance p =>
    rw [step, advance] at ht
    cases hpc : s.pc p with
    | take rd =>
      rw [hpc] at ht
      cases ht
      exact takeByte_grows s p rd
    | _ =>
      -- the other steps only move the process
      rw [hpc] at ht
      dsimp only at ht
      repeat' split at ht
      all_goals cases ht
      all_goals exact Grows.idle rfl rfl
  | kill p =>
    cases ht
    exact Grows.idle rfl rfl

theorem run_grows {acts : List (Act N)} (hrun : run step s acts = some t) : Grows s t := by
  have hstep : ∀ u a v, Grows s u → step u a = some v → Grows s v :=
    fun _ _ _ h ht => h.trans (step_grows ht)
  exact run_invariant hstep acts s t (Grows.refl s) hrun

/-- **The console line discipline.**  In every run of the interrupt handler and of readers
that are not killed and whose destinations are writable:

* the indices satisfy `r ≤ w ≤ e ≤ r + INPUT_BUF_SIZE` as distances, and in a full buffer
  everything is committed;
* the bytes handed out, followed by those in `[r, w)`, are the text that the editing rules
  make of the input, up to the `^D`s, and a `^D` is never handed out;
* what reached a process are the bytes of its finished reads, then those of the running
  one, and each finished read returned at most one line and its length;
* whatever happens afterwards, the committed text stays and the bytes handed out stay. -/
theorem console_line_discipline {acts : List (Act N)} {buf : ℕ → UInt8} {s : St N}
    (hmeets : Meets step Undisturbed (start N buf) acts)
    (hrun : run step (start N buf) acts = some s) :
    usub s.cons.w s.cons.r ≤ usub s.cons.e s.cons.r ∧ usub s.cons.e s.cons.r ≤ INPUT_BUF_SIZE ∧
      (usub s.cons.e s.cons.r = INPUT_BUF_SIZE → s.cons.w = s.cons.e) ∧
      (s.delivered.map Prod.snd ++ s.cons.unread).filter (fun x => x ≠ C 'D') =
        (edit s.history).text.filter (fun x => x ≠ C 'D') ∧ C 'D' ∉ s.delivered.map Prod.snd ∧
      (∀ p, s.sentTo p = s.readBy p ++ (s.pc p).got) ∧
      (∀ x ∈ s.reads, OneLine x.2.bytes ∧ x.2.result = x.2.bytes.length) ∧
      ∀ more t, run step s more = some t → Grows s t := by
  have hinv : Inv s := run_invariant_of_meets (fun _ _ _ h ha ht => h.step ha ht) acts _ s
    (Inv.start N buf) hmeets hrun
  obtain ⟨R, W, E, hring⟩ := hinv.ring
  have hRW := hring.hRW
  have hWE := hring.hWE
  have hER := hring.hER
  refine ⟨?_, ?_, ?_, ?_, ?_, fun p => (hinv.fit p).sent, hinv.done, fun _ _ => run_grows⟩
  · rw [hring.usub_w_r, hring.usub_e_r]
    omega
  · rw [hring.usub_e_r]
    omega
  · rw [hring.usub_e_r]
    intro hfull
    have hfull' : E = R + INPUT_BUF_SIZE := by omega
    exact (hring.e_eq_w.mpr (hring.full hfull')).symm
  · rw [Editor.text, List.filter_append, List.filter_append, hring.unread_eq, ← hinv.past,
      List.filter_filter]
    simp
  · rw [← hinv.past]
    simp

/-- The keys `h`, `x`, backspace, `i` and return, while one process reads. -/
def greeting : List (Act 1) :=
  [.call 0 10 fun _ => true, .advance 0, .advance 0, .advance 0, .intr 104, .intr 120,
    .intr (C 'H'), .intr 105, .intr CR, .advance 0] ++ List.replicate 9 (.advance 0)

theorem console_line_discipline_greeting :
    ∃ s, run step (start 1 fun _ => 0) greeting = some s ∧ s.reads = [(0, ⟨[104, 105, NL], 3⟩)] ∧
      C 'D' ∉ s.delivered.map Prod.snd := by
  have hmeets : Meets step Undisturbed (start 1 fun _ => 0) greeting :=
    Meets.of_forall greeting _ (by simp [greeting, Undisturbed])
  have hrun : (run step (start 1 fun _ => 0) greeting).map (fun s => s.reads) =
      some [(0, ⟨[104, 105, NL], 3⟩)] := by decide +kernel
  obtain ⟨s, hrun, hreads⟩ := Option.map_eq_some_iff.mp hrun
  exact ⟨s, hrun, hreads, (console_line_discipline hmeets hrun).2.2.2.2.1⟩

end Console
