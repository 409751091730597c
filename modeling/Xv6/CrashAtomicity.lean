/-
# Crash atomicity of the redo log

Every action keeps the invariant of the logging system, so whatever the
processes do and whenever the power fails, recovery produces the content after
the groups whose header was written (`recover_whole_groups`).  `GroupInv` adds
that a group is made of whole operations.
-/
import Xv6.CrashInv

open Transition

namespace Crash

variable {sb : Superblock} {d0 : Disk} {s t : St}

/-! ## The invariant holds in every run -/

/-- A machine that is switched on with a recoverable disk. -/
theorem inv_boot (hrec : Recoverable sb s.disk (committed d0 s)) : Inv sb d0 (crash sb s) where
  recoverable := hrec
  cache := CacheInv.binit _
  head := {
    size := rfl
    nodup := List.nodup_nil
    home := fun b hb => by cases hb
    fits := Nat.zero_le _
    small := by show (0 : ℕ) < 2 ^ 31; norm_num }
  pcInv := ⟨rfl, rfl⟩
  op := {
    outstanding := rfl
    quiet := fun _ => rfl
    committing := ⟨fun hc => (Bool.false_ne_true hc).elim, fun hc => by cases hc.1⟩
    dirty := fun _ _ _ hd => by cases hd }

variable {a : Act} {p k : ℕ}

/-- **Every action keeps the invariant**, a crash included. -/
theorem inv_step (hlog : 0 < sb.nlog) (h : Inv sb d0 s)
    (hstep : step sb s a = some t) : Inv sb d0 t := by
  cases a with
  | beginOp p => exact inv_beginOp h hstep
  | endOp p => exact inv_endOp h hstep
  | bget p b => exact inv_bget h hstep
  | acquire p k => exact inv_acquire h hstep
  | modify p k d => exact inv_modify h hstep
  | logWrite p k => exact inv_logWrite h hstep
  | brelse p k => exact inv_brelse h hstep
  | drop p k => exact inv_drop h hstep
  | readHead p k => exact inv_readHead h hstep
  | writeLog p kto kfrom => exact inv_writeLog h hstep
  | writeHead p k => exact inv_writeHead h hlog hstep
  | install p klog kdst => exact inv_install h hlog hstep
  | clearHead p k => exact inv_clearHead h hlog hstep
  | finish p => exact inv_finish h hstep
  | crash =>
    cases hstep
    exact inv_boot h.recoverable

theorem inv_init (hclean : readHead (d0 sb.logstart) = []) : Inv sb d0 (boot sb d0) := by
  refine inv_boot (s := boot sb d0) ⟨?_, ?_, ?_, ?_, fun _ _ _ => rfl⟩
  · show (readHead (d0 sb.logstart)).Nodup
    rw [hclean]
    exact List.nodup_nil
  · show ∀ b ∈ readHead (d0 sb.logstart), Home sb b
    rw [hclean]
    exact fun b hb => by cases hb
  · show (readHead (d0 sb.logstart)).length ≤ sb.nlog - 1
    rw [hclean]
    exact Nat.zero_le _
  · show ∀ i b, (readHead (d0 sb.logstart))[i]? = some b → _
    rw [hclean]
    exact fun i b hi => by cases hi

/-! ## No operation is split -/

/-- The calls of `log_write` of one operation stay together: those of a
committed group are all in it, and those of the group that is being built are
all pending. -/
structure GroupInv (s : St) : Prop where
  opNumber : ∀ p o, (p, o) ∈ s.ops → o < s.nextOp
  recNumber : ∀ r ∈ s.issued, r.op < s.nextOp
  whole : ∀ G ∈ s.groups, ∀ r ∈ G, r ∈ s.issued ∧
    (∀ r' ∈ s.issued, r'.op = r.op → r' ∈ G) ∧ ∀ p, (p, r.op) ∉ s.ops
  running : ∀ p o, (p, o) ∈ s.ops → ∀ r ∈ s.issued, r.op = o → r ∈ s.pending
  together : ∀ r ∈ s.pending, r ∈ s.issued ∧ ∀ r' ∈ s.issued, r'.op = r.op → r' ∈ s.pending

section

variable (h : GroupInv s)
include h

/-- Steps that touch neither the operations nor the calls. -/
theorem groupInv_congr (hops : t.ops = s.ops) (hnext : t.nextOp = s.nextOp)
    (hissued : t.issued = s.issued) (hpending : t.pending = s.pending)
    (hgroups : t.groups = s.groups) : GroupInv t := by
  obtain ⟨h1, h2, h3, h4, h5⟩ := h
  exact ⟨by rwa [hops, hnext], by rwa [hissued, hnext], by rwa [hgroups, hissued, hops],
    by rwa [hops, hissued, hpending], by rwa [hpending, hissued]⟩

theorem groupInv_beginOp (hstep : beginOp s p = some t) : GroupInv t := by
  unfold beginOp at hstep
  split_ifs at hstep with hc
  obtain ⟨l, hl, rfl⟩ := Option.map_eq_some_iff.mp hstep
  refine ⟨?_, ?_, ?_, ?_, h.together⟩
  · intro q o ho
    rcases List.mem_cons.mp ho with heq | ho
    · cases heq
      exact Nat.lt_succ_self _
    · exact Nat.lt_succ_of_lt (h.opNumber q o ho)
  · exact fun r hr => Nat.lt_succ_of_lt (h.recNumber r hr)
  · intro G hG r hr
    obtain ⟨hiss, hall, hnot⟩ := h.whole G hG r hr
    refine ⟨hiss, hall, fun q hq => ?_⟩
    rcases List.mem_cons.mp hq with heq | hq
    · have hlt := h.recNumber r hiss
      have hop : r.op = s.nextOp := (Prod.ext_iff.mp heq).2
      omega
    · exact hnot q hq
  · intro q o ho r hr hro
    rcases List.mem_cons.mp ho with heq | ho
    · have hlt := h.recNumber r hr
      have hop : o = s.nextOp := (Prod.ext_iff.mp heq).2
      omega
    · exact h.running q o ho r hr hro

theorem groupInv_endOp (hstep : endOp s p = some t) : GroupInv t := by
  unfold endOp at hstep
  cases hop : opOf s p with
  | none => rw [hop] at hstep; cases hstep
  | some o =>
    rw [hop] at hstep
    simp only at hstep
    split_ifs at hstep with hclean
    cases hend : Log.endOp s.log with
    | error msg => rw [hend] at hstep; cases hstep
    | ok lc =>
      rw [hend] at hstep
      cases hstep
      have hsub : ∀ x, x ∈ s.ops.erase (p, o) → x ∈ s.ops := fun x => List.mem_of_mem_erase
      refine ⟨fun q o' ho => h.opNumber q o' (hsub _ ho), h.recNumber, ?_,
        fun q o' ho => h.running q o' (hsub _ ho), h.together⟩
      intro G hG r hr
      obtain ⟨hiss, hall, hnot⟩ := h.whole G hG r hr
      exact ⟨hiss, hall, fun q hq => hnot q (hsub _ hq)⟩

theorem groupInv_logWrite (hstep : logWrite sb s p k = some t) : GroupInv t := by
  unfold logWrite at hstep
  cases hop : opOf s p with
  | none => rw [hop] at hstep; cases hstep
  | some o =>
    rw [hop] at hstep
    simp only at hstep
    split_ifs at hstep with hc
    cases hw : Log.logWrite s.log (s.cache.buf k).blockno with
    | error msg => rw [hw] at hstep; cases hstep
    | ok lc =>
      rw [hw] at hstep
      cases hstep
      have hmem := mem_ops_of_opOf hop
      refine ⟨h.opNumber, ?_, ?_, ?_, ?_⟩
      · intro r hr
        rcases List.mem_append.mp hr with hr | hr
        · exact h.recNumber r hr
        · rw [List.mem_singleton] at hr
          rw [hr]
          exact h.opNumber p o hmem
      · intro G hG r hr
        obtain ⟨hiss, hall, hnot⟩ := h.whole G hG r hr
        refine ⟨List.mem_append_left _ hiss, fun r' hr' heq => ?_, hnot⟩
        rcases List.mem_append.mp hr' with hr' | hr'
        · exact hall r' hr' heq
        · -- the new call is by a running operation, which no group has
          rw [List.mem_singleton] at hr'
          rw [hr'] at heq
          exact absurd (heq ▸ hmem) (hnot p)
      · intro q o' ho r hr hro
        rcases List.mem_append.mp hr with hr | hr
        · exact List.mem_append_left _ (h.running q o' ho r hr hro)
        · exact List.mem_append_right _ hr
      · intro r hr
        rcases List.mem_append.mp hr with hr | hr
        · refine ⟨List.mem_append_left _ (h.together r hr).1, fun r' hr' heq => ?_⟩
          rcases List.mem_append.mp hr' with hr' | hr'
          · exact List.mem_append_left _ ((h.together r hr).2 r' hr' heq)
          · exact List.mem_append_right _ hr'
        · refine ⟨List.mem_append_right _ hr, fun r' hr' heq => ?_⟩
          rw [List.mem_singleton] at hr
          rcases List.mem_append.mp hr' with hr' | hr'
          · exact List.mem_append_left _ (h.running p o hmem r' hr' (heq.trans (by rw [hr])))
          · exact List.mem_append_right _ hr'

theorem groupInv_writeHead (hinv : Inv sb d0 s)
    (hstep : stepWriteHead sb s p k = some t) : GroupInv t := by
  unfold stepWriteHead at hstep
  split at hstep
  case h_1 q tail hpc =>
    have hops := hinv.op.quiet (by rw [hpc]; simp)
    split_ifs at hstep with hc
    obtain ⟨rfl, rfl, hk, hlock, hblock⟩ := hc
    simp only [bwrite_setData _ hlock] at hstep
    cases hstep
    refine ⟨h.opNumber, h.recNumber, ?_, ?_, fun r hr => by cases hr⟩
    · intro G hG r hr
      rcases List.mem_append.mp hG with hG | hG
      · exact h.whole G hG r hr
      · rw [List.mem_singleton] at hG
        rw [hG] at hr ⊢
        refine ⟨(h.together r hr).1, (h.together r hr).2, fun q' hq' => ?_⟩
        simp only [hops] at hq'
        cases hq'
    · intro q' o ho
      simp only [hops] at ho
      cases ho
  case h_2 => cases hstep

theorem groupInv_crash : GroupInv (crash sb s) where
  opNumber := fun _ _ ho => by cases ho
  recNumber := h.recNumber
  whole := fun G hG r hr => by
    obtain ⟨hiss, hall, -⟩ := h.whole G hG r hr
    exact ⟨hiss, hall, fun _ hq => by cases hq⟩
  running := fun _ _ ho => by cases ho
  together := fun _ hr => by cases hr

theorem groupInv_installBlock {tail klog kdst : ℕ}
    (hstep : installBlock sb s p tail klog kdst = some t) : GroupInv t := by
  unfold installBlock at hstep
  split at hstep <;> try cases hstep
  split_ifs at hstep
  simp only at hstep
  split at hstep <;> cases hstep
  exact groupInv_congr h rfl rfl rfl rfl rfl

theorem groupInv_clearHead {next : Pc} (hstep : clearHead sb s p k next = some t) : GroupInv t := by
  unfold clearHead at hstep
  split_ifs at hstep
  simp only at hstep
  split at hstep <;> cases hstep
  exact groupInv_congr h rfl rfl rfl rfl rfl

end

theorem groupInv_init : GroupInv (boot sb d0) where
  opNumber := fun _ _ ho => by cases ho
  recNumber := fun _ hr => by cases hr
  whole := fun _ hG => by cases hG
  running := fun _ _ ho => by cases ho
  together := fun _ hr => by cases hr

/-- The cache operations and the disk writes other than that of the header leave
operations and calls alone. -/
theorem groupInv_step (hinv : Inv sb d0 s) (h : GroupInv s)
    (hstep : step sb s a = some t) : GroupInv t := by
  cases a with
  | beginOp p => exact groupInv_beginOp h hstep
  | endOp p => exact groupInv_endOp h hstep
  | logWrite p k => exact groupInv_logWrite h hstep
  | writeHead p k => exact groupInv_writeHead h hinv hstep
  | crash =>
    cases hstep
    exact groupInv_crash h
  | bget p b =>
    simp only [step, bget] at hstep
    split_ifs at hstep
    split at hstep <;> cases hstep
    exact groupInv_congr h rfl rfl rfl rfl rfl
  | acquire p k =>
    obtain ⟨c, -, rfl⟩ := Option.map_eq_some_iff.mp hstep
    exact groupInv_congr h rfl rfl rfl rfl rfl
  | modify p k d =>
    simp only [step, modify] at hstep
    split_ifs at hstep
    cases hstep
    exact groupInv_congr h rfl rfl rfl rfl rfl
  | brelse p k =>
    simp only [step, brelse] at hstep
    split_ifs at hstep
    split at hstep <;> cases hstep
    exact groupInv_congr h rfl rfl rfl rfl rfl
  | drop p k =>
    simp only [step, drop] at hstep
    split_ifs at hstep
    cases hstep
    exact groupInv_congr h rfl rfl rfl rfl rfl
  | readHead p k =>
    simp only [step, stepReadHead] at hstep
    split_ifs at hstep
    cases hstep
    exact groupInv_congr h rfl rfl rfl rfl rfl
  | writeLog p kto kfrom =>
    simp only [step, stepWriteLog] at hstep
    split at hstep <;> try cases hstep
    split at hstep <;> try cases hstep
    split_ifs at hstep
    split at hstep <;> cases hstep
    exact groupInv_congr h rfl rfl rfl rfl rfl
  | install p klog kdst =>
    simp only [step, stepInstall] at hstep
    split at hstep
    · obtain ⟨u, hu, rfl⟩ := Option.map_eq_some_iff.mp hstep
      exact groupInv_congr (groupInv_installBlock h hu) rfl rfl rfl rfl rfl
    · split_ifs at hstep
      obtain ⟨u, hu, rfl⟩ := Option.map_eq_some_iff.mp hstep
      exact groupInv_congr (groupInv_installBlock h hu) rfl rfl rfl rfl rfl
    · cases hstep
  | clearHead p k =>
    simp only [step, stepClearHead] at hstep
    split at hstep
    · split_ifs at hstep
      exact groupInv_clearHead h hstep
    · split_ifs at hstep
      exact groupInv_clearHead h hstep
    · cases hstep
  | finish p =>
    simp only [step, finish] at hstep
    split_ifs at hstep
    cases hstep
    exact groupInv_congr h rfl rfl rfl rfl rfl

/-! ## The main theorem -/

/-- **Crash atomicity.**  Whatever the processes do from a clean disk `d0` on,
and however often the power fails, in commits and in recoveries, at every moment

* `recover_from_log` would leave in every home block its content after exactly
  the groups whose header has been written;
* whenever no commit or recovery is in progress that content is in place;
* a group has all the calls of `log_write` of an operation or none of them. -/
theorem recover_whole_groups (sb : Superblock) (d0 : Disk) (hlog : 0 < sb.nlog)
    (hclean : readHead (d0 sb.logstart) = []) (as : List Act) (s : St)
    (hrun : run (step sb) (boot sb d0) as = some s) :
    (∀ b, Home sb b → recoverFromLog sb s.disk b = applyRecs d0 s.groups.flatten b) ∧
      (s.pc = .idle → ∀ b, Home sb b → s.disk b = applyRecs d0 s.groups.flatten b) ∧
      ∀ G ∈ s.groups, ∀ r ∈ G, r ∈ s.issued ∧ ∀ r' ∈ s.issued, r'.op = r.op → r' ∈ G := by
  have hkeep : ∀ u a v, Inv sb d0 u ∧ GroupInv u → step sb u a = some v →
      Inv sb d0 v ∧ GroupInv v :=
    fun u a v hu hstep => ⟨inv_step hlog hu.1 hstep, groupInv_step hu.1 hu.2 hstep⟩
  obtain ⟨hinv, hgroup⟩ :=
    run_invariant hkeep as (boot sb d0) s ⟨inv_init hclean, groupInv_init⟩ hrun
  refine ⟨fun b hb => recoverFromLog_eq hlog hinv.recoverable hb, ?_, ?_⟩
  · intro hpc b hb
    have hpcInv := hinv.pcInv
    rw [PcInv, hpc] at hpcInv
    exact disk_home hinv hpcInv.1 hb
  · intro G hG r hr
    exact ⟨(hgroup.whole G hG r hr).1, (hgroup.whole G hG r hr).2.1⟩

/-- Process 0 recovers, logs one block in an operation, and loses power right
after the header of the commit was written. -/
def commitThenCrash : List Act :=
  let recovery : List Act := [.bget 0 2, .acquire 0 0, .readHead 0 0, .clearHead 0 0,
    .brelse 0 0, .drop 0 0]
  let operation : List Act := [.beginOp 0, .bget 0 100, .acquire 0 1, .modify 0 1 (fun _ => 7),
    .logWrite 0 1, .brelse 0 1, .drop 0 1, .endOp 0]
  let commit : List Act := [.bget 0 3, .acquire 0 2, .bget 0 100, .acquire 0 1,
    .writeLog 0 2 1, .bget 0 2, .acquire 0 0, .writeHead 0 0]
  recovery ++ operation ++ commit ++ [.crash]

theorem recover_whole_groups_commitThenCrash :
    ∃ s, run (step Mkfs.sb) (boot Mkfs.sb fun _ _ => 0) commitThenCrash = some s ∧
      s.pc = .readHead ∧ recoverFromLog Mkfs.sb s.disk 100 0 = 7 := by
  obtain ⟨s, hs⟩ := Option.isSome_iff_exists.mp
    (show (run (step Mkfs.sb) (boot Mkfs.sb fun _ _ => 0) commitThenCrash).isSome from by decide)
  have hpc : (run (step Mkfs.sb) (boot Mkfs.sb fun _ _ => 0) commitThenCrash).map
      (fun s => (s.pc, applyRecs (fun _ _ => 0) s.groups.flatten 100 0)) = some (.readHead, 7) := by
    decide
  rw [hs, Option.map_some, Option.some.injEq, Prod.mk.injEq] at hpc
  refine ⟨s, hs, hpc.1, ?_⟩
  rw [(recover_whole_groups Mkfs.sb (fun _ _ => 0) (by decide) (by decide) commitThenCrash s hs).1
    100 (by decide)]
  exact hpc.2

end Crash
