/-
# The reservation of log space

Any number of processes run file-system operations, each between its `begin_op`
and its `end_op`, and the steps are the critical sections of `log.lock`.  The
rule that callers keep is `WithinOp`: between `begin_op` and `end_op` a process
passes at most `MAXOPBLOCKS` distinct block numbers to `log_write`.

`begin_op` reserves against `LOGSIZE` slots, but `mkfs` gives the log
`nlog = LOGSIZE` blocks of which one is the header, and `log_write` refuses to
go on as soon as `log.size - 1` blocks are logged, before it looks whether the
block is one of them.  So three operations that log ten blocks each stop the
machine at the thirtieth: `tooBigTransaction_reached`.
-/
import Mathlib.Algebra.BigOperators.Group.List.Basic
import Mathlib.Algebra.Ring.Nat
import Xv6.Log

namespace LogSpace

open Function Transition

/-! ## The system -/

/-- The log, and as ghosts the processes inside an operation, the distinct
blocks each of them has logged in it, and the arguments of all calls of
`log_write` since the last commit. -/
structure St where
  log : Log
  running : List ℕ
  blocks : ℕ → List ℕ
  group : List ℕ
  panicked : Option String

/-- The state after `initlog` on the image of `mkfs`. -/
def init : St where
  log := Log.initlog Mkfs.sb
  running := []
  blocks := fun _ => []
  group := []
  panicked := none

inductive Act where
  | beginOp (p : ℕ)
  | logWrite (p b : ℕ)
  | endOp (p : ℕ)
  | commit
  deriving DecidableEq, Repr

/-- A new block of an operation joins the blocks it has logged. -/
def addBlock (l : List ℕ) (b : ℕ) : List ℕ := if b ∈ l then l else l ++ [b]

/-- One critical section of `log.lock`.  After a panic nothing is enabled. -/
def step (s : St) (a : Act) : Option St :=
  if s.panicked.isSome then none else
  match a with
  | .beginOp p =>
    if p ∈ s.running then none else
    (Log.beginOp s.log).map fun l =>
      { s with log := l, running := p :: s.running,
               blocks := update s.blocks p [] }
  | .logWrite p b =>
    if p ∈ s.running then
      match Log.logWrite s.log b with
      | .error msg => some { s with panicked := some msg }
      | .ok (l, _) =>
        some { s with log := l, group := s.group ++ [b],
                      blocks := update s.blocks p (addBlock (s.blocks p) b) }
    else none
  | .endOp p =>
    if p ∈ s.running then
      match Log.endOp s.log with
      | .error msg => some { s with panicked := some msg }
      | .ok (l, _) => some { s with log := l, running := s.running.erase p }
    else none
  | .commit =>
    if s.log.committing then
      some { s with log := Log.commitDone s.log, group := [] }
    else none

/-- The rule for callers: at most `MAXOPBLOCKS` distinct blocks in one
operation. -/
def WithinOp (s : St) : Act → Prop
  | .logWrite p b => (addBlock (s.blocks p) b).length ≤ MAXOPBLOCKS
  | _ => True

/-- The property: no "too big a transaction", and the blocks of the header have
their own slots in `[log.start + 1, log.start + log.size)`. -/
def SpaceOk (s : St) : Prop :=
  s.panicked ≠ some "too big a transaction" ∧
    s.log.lh.Nodup ∧ ∀ i < s.log.lh.length,
      s.log.start + 1 ≤ s.log.start + 1 + i ∧
        s.log.start + 1 + i < s.log.start + s.log.size

/-- The boundary: when `log_write` is called, fewer than `LOGSIZE - 1` distinct
blocks have been passed to it since the last commit. -/
def Room (s : St) : Act → Prop
  | .logWrite _ _ => s.group.dedup.length < LOGSIZE - 1
  | _ => True

instance : ∀ (s : St) (a : Act), Decidable (WithinOp s a)
  | _, .logWrite _ _ => inferInstanceAs (Decidable (_ ≤ _))
  | _, .beginOp _ => isTrue trivial
  | _, .endOp _ => isTrue trivial
  | _, .commit => isTrue trivial

/-! ## The invariant -/

/-- What holds between the critical sections: the header lists the distinct
blocks of the group, and `outstanding` counts the running operations. -/
structure Inv (s : St) : Prop where
  notPanicked : s.panicked = none
  size : s.log.size = LOGSIZE
  outstanding : s.log.outstanding = s.running.length
  idle : s.log.committing = true → s.running = []
  nodup : s.log.lh.Nodup
  mem : ∀ b, b ∈ s.log.lh ↔ b ∈ s.group
  fits : s.log.lh.length ≤ LOGSIZE - 1

theorem inv_init : Inv init where
  notPanicked := rfl
  size := rfl
  outstanding := rfl
  idle := fun _ => rfl
  nodup := List.nodup_nil
  mem := fun _ => Iff.rfl
  fits := by decide

variable {s t : St} {p : ℕ} {l : Log} {a : Act} {c : Bool}

/-- The length of the header is the number of distinct blocks of the group. -/
theorem length_lh (h : Inv s) : s.log.lh.length = s.group.dedup.length := by
  have hperm : s.log.lh.Perm s.group.dedup :=
    (List.perm_ext_iff_of_nodup h.nodup (List.nodup_dedup _)).mpr fun b => by
      rw [h.mem, List.mem_dedup]
  exact hperm.length_eq

theorem spaceOk_of_inv (h : Inv s) : SpaceOk s := by
  refine ⟨by rw [h.notPanicked]; simp, h.nodup, fun i hi => ⟨by omega, ?_⟩⟩
  have hfits := h.fits
  rw [h.size]
  simp only [LOGSIZE, MAXOPBLOCKS] at hfits ⊢
  omega

/-! ## One step -/

theorem inv_beginOp (h : Inv s) (hl : Log.beginOp s.log = some l) :
    Inv { s with log := l, running := p :: s.running,
                 blocks := update s.blocks p [] } := by
  unfold Log.beginOp at hl
  split_ifs at hl with hc hfull
  cases hl
  refine { h with outstanding := ?_, idle := fun hcommit => absurd hcommit hc }
  simp only [List.length_cons, h.outstanding]

theorem inv_endOp (h : Inv s) (hp : p ∈ s.running) :
    ∃ l c, Log.endOp s.log = .ok (l, c) ∧
      Inv { s with log := l, running := s.running.erase p } := by
  have hlen : (s.running.erase p).length = s.running.length - 1 :=
    List.length_erase_of_mem hp
  have hcommit : ¬ s.log.committing = true := fun hc => by
    rw [h.idle hc] at hp
    cases hp
  unfold Log.endOp
  rw [if_neg hcommit]
  split_ifs with hzero
  · refine ⟨_, _, rfl, { h with outstanding := ?_, idle := fun _ => ?_ }⟩
    · show 0 = (s.running.erase p).length
      rw [hlen, ← h.outstanding, hzero]
    · apply List.eq_nil_of_length_eq_zero
      rw [hlen, ← h.outstanding, hzero]
  · refine ⟨_, _, rfl, { h with outstanding := ?_, idle := fun hc => absurd hc hcommit }⟩
    show s.log.outstanding - 1 = _
    rw [hlen, h.outstanding]

/-- A call of `log_write` by a running operation goes through exactly when there
is room; otherwise it is the panic the property is about. -/
theorem logWrite_cases (h : Inv s) (b : ℕ) (hp : p ∈ s.running) :
    (s.group.dedup.length < LOGSIZE - 1 ∧ ∃ l c, Log.logWrite s.log b = .ok (l, c) ∧
      Inv { s with log := l, group := s.group ++ [b],
                   blocks := update s.blocks p (addBlock (s.blocks p) b) }) ∨
    (¬ s.group.dedup.length < LOGSIZE - 1 ∧
      Log.logWrite s.log b = .error "too big a transaction") := by
  have hout : ¬ s.log.outstanding < 1 := by
    have := List.length_pos_of_mem hp
    rw [h.outstanding]
    omega
  have hsize := h.size
  unfold Log.logWrite
  rw [← length_lh h]
  by_cases hroom : s.log.lh.length < LOGSIZE - 1
  · left
    refine ⟨hroom, ?_⟩
    rw [if_neg (by omega), if_neg hout]
    split_ifs with hb
    · refine ⟨_, _, rfl, { h with mem := fun c => ?_ }⟩
      rw [List.mem_append, List.mem_singleton, ← h.mem c]
      exact ⟨Or.inl, fun hc => hc.elim id fun hcb => hcb ▸ hb⟩
    · refine ⟨_, _, rfl, { h with nodup := ?_, mem := fun c => ?_, fits := ?_ }⟩
      · refine List.nodup_append.mpr ⟨h.nodup, List.nodup_singleton b, fun x hx y hy hxy => ?_⟩
        rw [List.mem_singleton] at hy
        exact hb (hy ▸ hxy ▸ hx)
      · rw [List.mem_append, List.mem_append, h.mem c]
      · rw [List.length_append, List.length_singleton]
        omega
  · right
    refine ⟨hroom, if_pos ?_⟩
    omega

/-- **One step**: either there was room and the invariant is kept, or there was
none and the machine stops with the panic of the property. -/
theorem step_cases (h : Inv s) (hstep : step s a = some t) :
    (Room s a ∧ Inv t) ∨ (¬ Room s a ∧ t.panicked = some "too big a transaction") := by
  unfold step at hstep
  rw [if_neg (by rw [h.notPanicked]; exact Bool.false_ne_true)] at hstep
  cases a with
  | beginOp p =>
    simp only at hstep
    split_ifs at hstep with hp
    obtain ⟨l, hl, rfl⟩ := Option.map_eq_some_iff.mp hstep
    exact Or.inl ⟨trivial, inv_beginOp h hl⟩
  | logWrite p b =>
    simp only at hstep
    split_ifs at hstep with hp
    rcases logWrite_cases h b hp with ⟨hroom, l, c, hl, hinv⟩ | ⟨hroom, herr⟩
    · rw [hl] at hstep
      cases hstep
      exact Or.inl ⟨hroom, hinv⟩
    · rw [herr] at hstep
      cases hstep
      exact Or.inr ⟨hroom, rfl⟩
  | endOp p =>
    simp only at hstep
    split_ifs at hstep with hp
    obtain ⟨l, c, hl, hinv⟩ := inv_endOp h hp
    rw [hl] at hstep
    cases hstep
    exact Or.inl ⟨trivial, hinv⟩
  | commit =>
    simp only at hstep
    split_ifs at hstep with hc
    cases hstep
    exact Or.inl ⟨trivial, { h with
      idle := fun _ => h.idle hc
      nodup := List.nodup_nil
      mem := fun _ => Iff.rfl
      fits := Nat.zero_le _ }⟩

/-! ## Whole runs -/

/-- From a state where the invariant holds, the property holds all along exactly
when every call of `log_write` finds room. -/
theorem always_spaceOk_iff (as : List Act) (s : St) (h : Inv s) :
    Always step SpaceOk s as ↔ Meets step Room s as := by
  refine always_iff_meets (fun u hu => spaceOk_of_inv hu) (fun u a t hu hroom ht => ?_)
    (fun u a t hu ht hok => ?_) as s h
  · rcases step_cases hu ht with ⟨-, hinv⟩ | ⟨hno, -⟩
    · exact hinv
    · exact absurd hroom hno
  · rcases step_cases hu ht with ⟨hroom, -⟩ | ⟨-, hpanic⟩
    · exact hroom
    · exact absurd hpanic hok.1

/-! ## The reservation itself -/

/-- The slots in use and the ones still promised to running operations. -/
def reserved (s : St) : ℕ :=
  s.log.lh.length + (s.running.map fun p => MAXOPBLOCKS - (s.blocks p).length).sum

/-- What `begin_op` maintains: at most `LOGSIZE` slots are used or promised,
and the blocks of a running operation are in the header. -/
structure Reserved (s : St) : Prop where
  nodup : s.running.Nodup
  le : reserved s ≤ LOGSIZE
  logged : ∀ p ∈ s.running, ∀ b ∈ s.blocks p, b ∈ s.log.lh

/-- The promises to the operations other than `p` do not depend on the blocks
of `p`. -/
theorem sum_erase_update (l : List ℕ) (f : ℕ → List ℕ) (p : ℕ) (v : List ℕ) (hnd : l.Nodup) :
    ((l.erase p).map fun q => MAXOPBLOCKS - (update f p v q).length).sum
      = ((l.erase p).map fun q => MAXOPBLOCKS - (f q).length).sum := by
  congr 1
  apply List.map_congr_left
  intro q hq
  have hne : q ≠ p := ((List.Nodup.mem_erase_iff hnd).mp hq).1
  rw [update_of_ne hne]

theorem reserved_logWrite (h : Reserved s) {b : ℕ} (hp : p ∈ s.running)
    (hop : WithinOp s (.logWrite p b)) (hl : Log.logWrite s.log b = .ok (l, c)) :
    Reserved { s with log := l, group := s.group ++ [b],
                      blocks := update s.blocks p (addBlock (s.blocks p) b) } := by
  -- whatever `log_write` does, the header keeps its blocks and has `b`
  have hmem : (∀ x ∈ s.log.lh, x ∈ l.lh) ∧ b ∈ l.lh ∧
      (l.lh.length = s.log.lh.length ∨
        (l.lh.length = s.log.lh.length + 1 ∧ b ∉ s.log.lh)) := by
    unfold Log.logWrite at hl
    split_ifs at hl with h1 h2 h3
    · cases hl
      exact ⟨fun _ hx => hx, h3, Or.inl rfl⟩
    · cases hl
      exact ⟨fun _ hx => List.mem_append_left _ hx, by simp, Or.inr ⟨by simp, h3⟩⟩
  obtain ⟨hold, hnew, hlen⟩ := hmem
  refine ⟨h.nodup, ?_, ?_⟩
  · have hle := h.le
    unfold reserved at hle ⊢
    rw [← List.sum_map_erase _ hp] at hle
    rw [← List.sum_map_erase _ hp]
    simp only
    rw [sum_erase_update _ _ _ _ h.nodup, update_self]
    have hop : (addBlock (s.blocks p) b).length ≤ MAXOPBLOCKS := hop
    unfold addBlock at hop ⊢
    split_ifs at hop ⊢ with hb
    · -- a block the operation has logged before is absorbed
      have : b ∈ s.log.lh := h.logged p hp b hb
      rcases hlen with hlen | ⟨-, hno⟩
      · rw [hlen]; exact hle
      · exact absurd this hno
    · rw [List.length_append, List.length_singleton] at hop ⊢
      rcases hlen with hlen | ⟨hlen, -⟩ <;> rw [hlen] <;> omega
  · intro q hq x hx
    simp only at hq hx ⊢
    by_cases hqp : q = p
    · subst hqp
      rw [update_self] at hx
      unfold addBlock at hx
      split_ifs at hx with hb
      · exact hold x (h.logged q hq x hx)
      · rcases List.mem_append.mp hx with hx | hx
        · exact hold x (h.logged q hq x hx)
        · rw [List.mem_singleton] at hx
          exact hx ▸ hnew
    · rw [update_of_ne hqp] at hx
      exact hold x (h.logged q hq x hx)

/-- No operation is promised more than `MAXOPBLOCKS` slots. -/
theorem sum_promised_le (l : List ℕ) (f : ℕ → List ℕ) :
    (l.map fun q => MAXOPBLOCKS - (f q).length).sum ≤ l.length * MAXOPBLOCKS := by
  induction l with
  | nil => simp
  | cons q l ih =>
    rw [List.map_cons, List.sum_cons, List.length_cons, Nat.succ_mul]
    omega

theorem reserved_beginOp (hinv : Inv s) (h : Reserved s) (hp : p ∉ s.running)
    (hl : Log.beginOp s.log = some l) :
    Reserved { s with log := l, running := p :: s.running,
                      blocks := update s.blocks p [] } := by
  unfold Log.beginOp at hl
  split_ifs at hl with hc hfull
  cases hl
  refine ⟨List.nodup_cons.mpr ⟨hp, h.nodup⟩, ?_, ?_⟩
  · have hsum := sum_promised_le (p :: s.running) (update s.blocks p [])
    rw [List.length_cons, ← hinv.outstanding] at hsum
    unfold reserved
    simp only
    omega
  · intro q hq x hx
    simp only at hq hx ⊢
    rcases List.mem_cons.mp hq with rfl | hq
    · rw [update_self] at hx
      cases hx
    · have hqp : q ≠ p := fun hqp => hp (hqp ▸ hq)
      rw [update_of_ne hqp] at hx
      exact h.logged q hq x hx

theorem reserved_endOp (h : Reserved s) (hp : p ∈ s.running) (hl : Log.endOp s.log = .ok (l, c)) :
    Reserved { s with log := l, running := s.running.erase p } := by
  have hlh : l.lh = s.log.lh := by
    unfold Log.endOp at hl
    split_ifs at hl <;> cases hl <;> rfl
  refine ⟨h.nodup.erase p, ?_, fun q hq x hx => ?_⟩
  · have hle := h.le
    unfold reserved at hle ⊢
    rw [← List.sum_map_erase _ hp] at hle
    simp only [hlh]
    omega
  · rw [hlh]
    exact h.logged q (List.mem_of_mem_erase hq) x hx

/-- The reservation is kept by every step that does not stop the machine. -/
theorem reserved_step (hinv : Inv s) (h : Reserved s) (hop : WithinOp s a)
    (hstep : step s a = some t) : Reserved t := by
  unfold step at hstep
  rw [if_neg (by rw [hinv.notPanicked]; exact Bool.false_ne_true)] at hstep
  cases a with
  | beginOp p =>
    simp only at hstep
    split_ifs at hstep with hp
    obtain ⟨l, hl, rfl⟩ := Option.map_eq_some_iff.mp hstep
    exact reserved_beginOp hinv h hp hl
  | logWrite p b =>
    simp only at hstep
    split_ifs at hstep with hp
    cases hl : Log.logWrite s.log b with
    | error msg =>
      rw [hl] at hstep
      cases hstep
      exact ⟨h.nodup, h.le, h.logged⟩
    | ok lc =>
      rw [hl] at hstep
      cases hstep
      exact reserved_logWrite h hp hop hl
  | endOp p =>
    simp only at hstep
    split_ifs at hstep with hp
    obtain ⟨l, c, hl, -⟩ := inv_endOp hinv hp
    rw [hl] at hstep
    cases hstep
    exact reserved_endOp h hp hl
  | commit =>
    simp only at hstep
    split_ifs at hstep with hc
    cases hstep
    have hnil := hinv.idle hc
    refine ⟨h.nodup, ?_, fun q hq => ?_⟩
    · simp [reserved, Log.commitDone, hnil]
    · rw [hnil] at hq
      cases hq

/-- **The reservation of `begin_op` is right for `LOGSIZE` slots**: in a run
whose operations keep to `MAXOPBLOCKS` blocks, the slots in use and the slots
promised to running operations never exceed `LOGSIZE`. -/
theorem always_reserved (as : List Act) :
    ∀ s, Inv s → Reserved s → Meets step WithinOp s as → Always step Reserved s as := by
  induction as with
  | nil => exact fun s _ h _ => h
  | cons a as ih =>
    intro s hinv h hmeets
    refine ⟨h, fun t ht => ?_⟩
    obtain ⟨hop, hmeets⟩ := hmeets t ht
    have ht' := reserved_step hinv h hop ht
    rcases step_cases hinv ht with ⟨-, hinv'⟩ | ⟨-, hpanic⟩
    · exact ih t hinv' ht' hmeets
    · -- nothing happens after a panic
      have hstop : ∀ b, step t b = none := fun b => by
        unfold step
        rw [hpanic, Option.isSome_some, if_pos rfl]
      cases as with
      | nil => exact ht'
      | cons b bs => exact ⟨ht', fun u hu => by rw [hstop b] at hu; cases hu⟩

theorem reserved_init : Reserved init :=
  ⟨List.nodup_nil, by decide, fun _ hp => by cases hp⟩

/-! ## The main theorem -/

/-- **Log space.**  In every run from the image of `mkfs` in which the
operations keep to `MAXOPBLOCKS` blocks, no `log_write` panics and the logged
blocks have their own slots all along exactly when no call of `log_write` comes
after `LOGSIZE - 1` distinct blocks have been logged since the last commit;
and the space `begin_op` has handed out never exceeds `LOGSIZE` slots, one more
than the log has. -/
theorem spaceOk_iff_room (as : List Act) (hops : Meets step WithinOp init as) :
    (Always step SpaceOk init as ↔ Meets step Room init as) ∧ Always step Reserved init as :=
  ⟨always_spaceOk_iff as init inv_init,
    always_reserved as init inv_init reserved_init hops⟩

/-- One operation that logs a block and commits. -/
theorem spaceOk_iff_room_one_op :
    (Always step SpaceOk init [.beginOp 1, .logWrite 1 46, .endOp 1, .commit] ↔
      Meets step Room init [.beginOp 1, .logWrite 1 46, .endOp 1, .commit]) ∧
    Always step Reserved init [.beginOp 1, .logWrite 1 46, .endOp 1, .commit] :=
  spaceOk_iff_room [.beginOp 1, .logWrite 1 46, .endOp 1, .commit] (by decide)

/-- Three operations of ten blocks each: the last action is the thirtieth
`log_write`. -/
def threeOps : List Act :=
  [.beginOp 1, .beginOp 2, .beginOp 3] ++
    (List.range 10).map (fun i => .logWrite 1 (50 + i)) ++
    (List.range 10).map (fun i => .logWrite 2 (60 + i)) ++
    (List.range 10).map (fun i => .logWrite 3 (70 + i))

/-- **The panic is reached**: three concurrent operations that log ten blocks
each keep to the rule, and the last `log_write` stops the machine. -/
theorem tooBigTransaction_reached :
    Meets step WithinOp init threeOps ∧ ¬ Always step SpaceOk init threeOps := by
  refine ⟨by decide +kernel, fun hal => ?_⟩
  have hpanic : (run step init threeOps).bind St.panicked = some "too big a transaction" := by
    decide +kernel
  obtain ⟨s, hs, hmsg⟩ := Option.bind_eq_some_iff.mp hpanic
  exact (Always.of_run threeOps init s hal hs).1 hmsg

end LogSpace
