/-
# The invariant of the logging system

The invariant `Inv` says that at every moment the disk is recoverable to the
content after the groups whose header has been written, and ties the log area,
the home blocks, the pinned buffers and the position inside `commit` or
`recover_from_log` together.  There is one lemma for each action.
-/
import Xv6.CacheInv
import Xv6.Recovery

open Bytes Transition

namespace Crash

open Function

/-! ## Logical contents -/

/-- The content after a list of calls of `log_write`. -/
def applyRecs (d : Disk) (rs : List Rec) : Disk :=
  rs.foldl (fun d r => update d r.blockno r.data) d

theorem applyRecs_append (d : Disk) (rs rs' : List Rec) :
    applyRecs d (rs ++ rs') = applyRecs (applyRecs d rs) rs' :=
  List.foldl_append

/-- A block that no call names keeps its content. -/
theorem applyRecs_other (rs : List Rec) :
    ∀ (d : Disk) (b : ℕ), (∀ r ∈ rs, r.blockno ≠ b) → applyRecs d rs b = d b := by
  induction rs with
  | nil => intro d b _; rfl
  | cons r rs ih =>
    intro d b h
    show applyRecs (update d r.blockno r.data) rs b = d b
    rw [ih _ b (fun r' hr' => h r' (List.mem_cons_of_mem r hr')),
      update_of_ne (h r List.mem_cons_self).symm]

/-- The content after the committed groups. -/
def committed (d0 : Disk) (s : St) : Disk := applyRecs d0 s.groups.flatten

/-- The content the running operations see. -/
def current (d0 : Disk) (s : St) : Disk := applyRecs (committed d0 s) s.pending

/-- The blocks that are pinned in the cache. -/
def pins (s : St) : List ℕ :=
  match s.pc with
  | .readHead => []
  | .recover _ => []
  | .install _ tail => s.log.lh.drop tail
  | _ => s.log.lh

/-- What a clean buffer holds: during recovery what is on the disk, afterwards
the current content of a home block. -/
def view (sb : Superblock) (d0 : Disk) (s : St) : Disk := fun b =>
  if s.pc.booting = false ∧ Home sb b then current d0 s b else s.disk b

/-! ## The invariant -/

/-- Where the code stands, and what is on the disk by then. -/
def PcInv (sb : Superblock) (d0 : Disk) (s : St) : Prop :=
  match s.pc with
  | .readHead => s.log.lh = [] ∧ s.pending = []
  | .recover tail => readHead (s.disk sb.logstart) = s.log.lh ∧ s.pending = [] ∧
      tail ≤ s.log.lh.length ∧ ∀ b ∈ s.log.lh.take tail, s.disk b = committed d0 s b
  | .idle => readHead (s.disk sb.logstart) = [] ∧ ∀ r ∈ s.pending, r.blockno ∈ s.log.lh
  | .writeLog _ tail => readHead (s.disk sb.logstart) = [] ∧
      (∀ r ∈ s.pending, r.blockno ∈ s.log.lh) ∧ tail ≤ s.log.lh.length ∧
      ∀ i < tail, ∀ b, s.log.lh[i]? = some b → s.disk (sb.logstart + i + 1) = current d0 s b
  | .install _ tail => readHead (s.disk sb.logstart) = s.log.lh ∧ s.pending = [] ∧
      tail ≤ s.log.lh.length ∧ ∀ b ∈ s.log.lh.take tail, s.disk b = committed d0 s b
  | .done _ => readHead (s.disk sb.logstart) = [] ∧ s.pending = [] ∧ s.log.lh = []

/-- The in-memory header: distinct home blocks with a slot each. -/
structure HeadInv (sb : Superblock) (l : Log) : Prop where
  size : l.size = sb.nlog
  nodup : l.lh.Nodup
  home : ∀ b ∈ l.lh, Home sb b ∧ b < 2 ^ 32
  fits : l.lh.length ≤ sb.nlog - 1
  small : l.lh.length < 2 ^ 31

/-- The running operations: none outside normal operation, and only they have
buffers with unlogged changes. -/
structure OpInv (s : St) : Prop where
  outstanding : s.log.outstanding = s.ops.length
  quiet : s.pc ≠ .idle → s.ops = []
  committing : s.log.committing = true ↔ s.pc.booting = false ∧ s.pc ≠ .idle
  dirty : ∀ k ∈ s.cache.lru, ∀ p, s.dirty k = some p → ∃ o, (p, o) ∈ s.ops

/-- The invariant of the machine. -/
structure Inv (sb : Superblock) (d0 : Disk) (s : St) : Prop where
  recoverable : Recoverable sb s.disk (committed d0 s)
  cache : CacheInv s.cache (pins s) s.dirty (view sb d0 s)
  head : HeadInv sb s.log
  pcInv : PcInv sb d0 s
  op : OpInv s

variable {sb : Superblock} {d0 : Disk} {s t : St}

/-- A step of recovery or of `commit` that goes to another one keeps the bookkeeping of the
operations. -/
theorem OpInv.moved (h : OpInv s) (hlog : t.log = { s.log with lh := t.log.lh }) (hops : t.ops = s.ops)
    (hlru : t.cache.lru = s.cache.lru) (hdirty : t.dirty = s.dirty)
    (hboot : t.pc.booting = s.pc.booting) (hidle : s.pc ≠ .idle) (hidle' : t.pc ≠ .idle) :
    OpInv t where
  outstanding := by rw [hlog, hops]; exact h.outstanding
  quiet _ := hops.trans (h.quiet hidle)
  committing := by
    rw [hlog, hboot]
    exact h.committing.trans (and_congr_right fun _ => iff_of_true hidle hidle')
  dirty := by rw [hlru, hdirty, hops]; exact h.dirty

/-! ## Reading the invariant -/

variable {b tail k p o klog kdst : ℕ} {c : Bcache} {d : Block} {disk : Disk}

/-- Outside recovery a home block shows its current content. -/
theorem view_home (hpc : s.pc.booting = false) (hb : Home sb b) : view sb d0 s b = current d0 s b :=
  if_pos ⟨hpc, hb⟩

/-- A block of the log area shows what is on the disk. -/
theorem view_log (hb : ¬ Home sb b) : view sb d0 s b = s.disk b :=
  if_neg fun hc => hb hc.2

/-- During recovery every block shows what is on the disk. -/
theorem view_booting (hpc : s.pc.booting = true) : view sb d0 s = s.disk := by
  funext b
  exact if_neg fun hc => by rw [hpc] at hc; cases hc.1

/-- The view depends on the disk, on the calls of `log_write` and on whether the
machine is booting. -/
theorem view_congr (hpc : t.pc.booting = s.pc.booting) (hdisk : t.disk = s.disk)
    (hgroups : t.groups = s.groups) (hpending : t.pending = s.pending) :
    view sb d0 t = view sb d0 s := by
  unfold view current committed
  rw [hpc, hdisk, hgroups, hpending]

/-- With nothing pending, the current content is the committed one. -/
theorem current_of_no_pending (h : s.pending = []) : current d0 s = committed d0 s := by
  unfold current
  rw [h]
  rfl

/-- A block that is not in the header has its committed content. -/
theorem current_eq_committed (h : ∀ r ∈ s.pending, r.blockno ∈ s.log.lh)
    (hb : b ∉ s.log.lh) : current d0 s b = committed d0 s b :=
  applyRecs_other s.pending (committed d0 s) b fun r hr heq => hb (heq ▸ h r hr)

/-- With a cleared header on disk, the home blocks hold the committed content. -/
theorem disk_home (h : Inv sb d0 s) (hhead : readHead (s.disk sb.logstart) = [])
    (hb : Home sb b) : s.disk b = committed d0 s b :=
  h.recoverable.others b hb (by rw [hhead]; exact List.not_mem_nil)

/-- While blocks are installed, the ones already copied and the ones that were
not logged hold the committed content. -/
theorem disk_installed (h : Inv sb d0 s) (hhead : readHead (s.disk sb.logstart) = s.log.lh)
    (hdone : ∀ b ∈ s.log.lh.take tail, s.disk b = committed d0 s b) (hb : Home sb b)
    (hnot : b ∉ s.log.lh.drop tail) : s.disk b = committed d0 s b := by
  by_cases hmem : b ∈ s.log.lh
  · rw [← List.take_append_drop tail s.log.lh, List.mem_append] at hmem
    exact hdone b (hmem.resolve_right hnot)
  · exact h.recoverable.others b hb (by rw [hhead]; exact hmem)

/-- A block that is not pinned shows what is on the disk. -/
theorem view_eq_disk (h : Inv sb d0 s) (hb : b ∉ pins s) : view sb d0 s b = s.disk b := by
  by_cases hhome : s.pc.booting = false ∧ Home sb b
  case neg => exact if_neg hhome
  rw [view_home hhome.1 hhome.2]
  have hpcInv := h.pcInv
  unfold PcInv at hpcInv
  unfold pins at hb
  cases hpc : s.pc with
  | readHead => rw [hpc] at hhome; cases hhome.1
  | recover tail => rw [hpc] at hhome; cases hhome.1
  | idle =>
    rw [hpc] at hpcInv hb
    rw [current_eq_committed hpcInv.2 hb, disk_home h hpcInv.1 hhome.2]
  | writeLog p tail =>
    rw [hpc] at hpcInv hb
    rw [current_eq_committed hpcInv.2.1 hb, disk_home h hpcInv.1 hhome.2]
  | install p tail =>
    rw [hpc] at hpcInv hb
    obtain ⟨hhead, hpend, -, hdone⟩ := hpcInv
    rw [current_of_no_pending hpend, disk_installed h hhead hdone hhome.2 hb]
  | done p =>
    rw [hpc] at hpcInv
    rw [current_of_no_pending hpcInv.2.1, disk_home h hpcInv.1 hhome.2]

/-- Outside normal operation no buffer has unlogged changes. -/
theorem clean_of_not_idle (h : Inv sb d0 s) (hpc : s.pc ≠ .idle)
    (hk : k ∈ s.cache.lru) : s.dirty k = none := by
  cases hd : s.dirty k with
  | none => rfl
  | some p =>
    obtain ⟨o, ho⟩ := h.op.dirty k hk p hd
    rw [h.op.quiet hpc] at ho
    cases ho

/-- An operation only runs in normal operation. -/
theorem idle_of_op (h : Inv sb d0 s) (hop : (p, o) ∈ s.ops) : s.pc = .idle := by
  by_contra hpc
  rw [h.op.quiet hpc] at hop
  cases hop

theorem mem_ops_of_opOf (h : opOf s p = some o) : (p, o) ∈ s.ops := by
  unfold opOf at h
  obtain ⟨⟨q, o'⟩, hfind, rfl⟩ := Option.map_eq_some_iff.mp h
  have hp := List.find?_some hfind
  simp only [decide_eq_true_eq] at hp
  subst hp
  exact List.mem_of_find?_eq_some hfind

/-! ## Actions on the cache alone -/

section

variable (h : Inv sb d0 s)
include h

/-- A change of the cache that keeps its invariant. -/
theorem inv_setCache {dirty : ℕ → Option ℕ} (hc : CacheInv c (pins s) dirty (view sb d0 s))
    (hdirty : ∀ k ∈ c.lru, ∀ p, dirty k = some p → ∃ o, (p, o) ∈ s.ops) :
    Inv sb d0 { s with cache := c, dirty := dirty } where
  recoverable := h.recoverable
  cache := hc
  head := h.head
  pcInv := h.pcInv
  op := { h.op with dirty := hdirty }

theorem inv_bget (hstep : bget s p b = some t) : Inv sb d0 t := by
  unfold bget at hstep
  split_ifs at hstep with hb
  cases hget : s.cache.bget p ROOTDEV b with
  | error msg => rw [hget] at hstep; cases hstep
  | ok kc =>
    rw [hget] at hstep
    cases hstep
    refine inv_setCache h (h.cache.bget hb hget) ?_
    have hlru : kc.2.lru = s.cache.lru := by
      unfold Bcache.bget at hget
      split at hget
      · cases hget; rfl
      · split at hget <;> cases hget
        rfl
    intro k hk
    rw [hlru] at hk
    exact h.op.dirty k hk

theorem inv_acquire (hstep : acquire s p k = some t) : Inv sb d0 t := by
  unfold acquire at hstep
  obtain ⟨c, hacq, rfl⟩ := Option.map_eq_some_iff.mp hstep
  refine inv_setCache h (h.cache.acquireBuf (fun n hn => view_eq_disk h hn) hacq) ?_
  have hlru : c.lru = s.cache.lru := by
    unfold Bcache.acquireBuf at hacq
    simp only at hacq
    split at hacq <;> cases hacq
    rfl
  intro j hj
  rw [hlru] at hj
  exact h.op.dirty j hj

theorem inv_modify (hstep : modify sb s p k d = some t) : Inv sb d0 t := by
  unfold modify at hstep
  split_ifs at hstep with hc
  obtain ⟨hop, hk, hlock, -⟩ := hc
  cases hstep
  obtain ⟨o, ho⟩ := Option.isSome_iff_exists.mp hop
  refine inv_setCache h (h.cache.modify d hk hlock) ?_
  intro j hj q hq
  by_cases hjk : j = k
  · subst hjk
    rw [update_self] at hq
    cases hq
    exact ⟨o, mem_ops_of_opOf ho⟩
  · rw [update_of_ne hjk] at hq
    exact h.op.dirty j hj q hq

theorem inv_brelse (hstep : brelse s p k = some t) : Inv sb d0 t := by
  unfold brelse at hstep
  split_ifs at hstep with hc
  cases hrel : s.cache.brelse p k with
  | error msg => rw [hrel] at hstep; cases hstep
  | ok c =>
    rw [hrel] at hstep
    cases hstep
    refine inv_setCache h (h.cache.brelse hc.1 hc.2 hrel) ?_
    have hlru : c.lru = s.cache.lru := by
      unfold Bcache.brelse at hrel
      simp only at hrel
      split_ifs at hrel
      cases hrel
      rfl
    intro j hj
    rw [hlru] at hj
    exact h.op.dirty j hj

theorem inv_drop (hstep : drop s p k = some t) : Inv sb d0 t := by
  unfold drop at hstep
  split_ifs at hstep with hc
  cases hstep
  refine inv_setCache h (h.cache.dropBuf hc.1 hc.2) ?_
  intro j hj
  refine h.op.dirty j ?_
  unfold Bcache.dropBuf at hj
  simp only at hj
  split_ifs at hj
  · exact (List.perm_cons_erase hc.1).mem_iff.mpr hj
  · exact hj

/-! ## Operations -/

theorem inv_beginOp (hstep : beginOp s p = some t) : Inv sb d0 t := by
  unfold beginOp at hstep
  split_ifs at hstep with hc
  obtain ⟨l, hl, rfl⟩ := Option.map_eq_some_iff.mp hstep
  unfold Log.beginOp at hl
  split_ifs at hl with hcommit hfull
  cases hl
  have hidle : s.pc = .idle := by
    by_contra hne
    exact hcommit (h.op.committing.mpr ⟨hc.1, hne⟩)
  exact {
    recoverable := h.recoverable
    cache := h.cache
    head := { h.head with }
    pcInv := h.pcInv
    op := {
      outstanding := by simp only [List.length_cons, h.op.outstanding]
      quiet := fun hne => absurd hidle hne
      committing := h.op.committing
      dirty := fun k hk q hq => by
        obtain ⟨o, ho⟩ := h.op.dirty k hk q hq
        exact ⟨o, List.mem_cons_of_mem _ ho⟩ } }

/-- `end_op` leaves the dirty buffers to the other operations. -/
theorem dirty_endOp (hclean : s.cache.lru.all (fun k => s.dirty k ≠ some p) = true) :
    ∀ k ∈ s.cache.lru, ∀ q, s.dirty k = some q → ∃ o', (q, o') ∈ s.ops.erase (p, o) := by
  intro k hk q hq
  obtain ⟨o', ho'⟩ := h.op.dirty k hk q hq
  refine ⟨o', (List.mem_erase_of_ne fun heq => ?_).mpr ho'⟩
  have hne := List.all_eq_true.mp hclean k hk
  simp only [ne_eq, decide_eq_true_eq] at hne
  cases heq
  exact hne hq

theorem inv_endOp (hstep : endOp s p = some t) : Inv sb d0 t := by
  unfold endOp at hstep
  cases hop : opOf s p with
  | none => rw [hop] at hstep; cases hstep
  | some o =>
    rw [hop] at hstep
    simp only at hstep
    split_ifs at hstep with hclean
    have hmem := mem_ops_of_opOf hop
    have hidle := idle_of_op h hmem
    have hlen := List.length_erase_of_mem hmem
    have hcommit : ¬ s.log.committing = true := fun hc => (h.op.committing.mp hc).2 hidle
    have hpc := h.pcInv
    unfold PcInv at hpc
    rw [hidle] at hpc
    have hcache := h.cache
    unfold pins at hcache
    rw [hidle] at hcache
    have hdirty := dirty_endOp h hclean (o := o)
    unfold Log.endOp at hstep
    rw [if_neg hcommit] at hstep
    have hboot : s.pc.booting = false := by rw [hidle]; rfl
    split_ifs at hstep with hzero
    · -- the last operation of the group: commit
      have hnone : s.ops.erase (p, o) = [] := by
        apply List.eq_nil_of_length_eq_zero
        rw [hlen, ← h.op.outstanding, hzero]
      simp only [if_true] at hstep
      cases hstep
      by_cases hlh : s.log.lh.length > 0
      · simp only [if_pos hlh]
        exact {
          recoverable := h.recoverable
          cache := hcache.of_view (view_congr hboot.symm rfl rfl rfl)
          head := { h.head with }
          pcInv := ⟨hpc.1, hpc.2, Nat.zero_le _, fun i hi => absurd hi (Nat.not_lt_zero i)⟩
          op := {
            outstanding := by simp only [hnone, List.length_nil]
            quiet := fun _ => hnone
            committing := by simp [Pc.booting]
            dirty := hdirty } }
      · simp only [if_neg hlh]
        have hnil : s.log.lh = [] := List.eq_nil_of_length_eq_zero (by omega)
        have hpend : s.pending = [] := by
          apply List.eq_nil_iff_forall_not_mem.mpr
          intro r hr
          have := hpc.2 r hr
          rw [hnil] at this
          cases this
        exact {
          recoverable := h.recoverable
          cache := hcache.of_view (view_congr hboot.symm rfl rfl rfl)
          head := { h.head with }
          pcInv := ⟨hpc.1, hpend, hnil⟩
          op := {
            outstanding := by simp only [hnone, List.length_nil]
            quiet := fun _ => hnone
            committing := by simp [Pc.booting]
            dirty := hdirty } }
    · simp only [Bool.false_eq_true, if_false] at hstep
      cases hstep
      exact {
        recoverable := h.recoverable
        cache := h.cache
        head := { h.head with }
        pcInv := h.pcInv
        op := {
          outstanding := by simp only [hlen, h.op.outstanding]
          quiet := fun hne => absurd hidle hne
          committing := h.op.committing
          dirty := hdirty } }

theorem inv_finish (hstep : finish s p = some t) : Inv sb d0 t := by
  unfold finish at hstep
  split_ifs at hstep with hpc
  cases hstep
  have hpcInv := h.pcInv
  unfold PcInv at hpcInv
  rw [hpc] at hpcInv
  have hcache := h.cache
  unfold pins at hcache
  rw [hpc] at hcache
  have hboot : s.pc.booting = false := by rw [hpc]; rfl
  exact {
    recoverable := h.recoverable
    cache := hcache.of_view (view_congr hboot.symm rfl rfl rfl)
    head := { h.head with }
    pcInv := ⟨hpcInv.1, fun r hr => by rw [hpcInv.2.1] at hr; cases hr⟩
    op := {
      outstanding := h.op.outstanding
      quiet := fun hne => absurd rfl hne
      committing := by simp
      dirty := h.op.dirty } }

end

/-- The content after one more call of `log_write`. -/
theorem current_logWrite (d0 : Disk) (s : St) (r : Rec) :
    applyRecs (committed d0 s) (s.pending ++ [r]) = update (current d0 s) r.blockno r.data := by
  rw [applyRecs_append]
  rfl

theorem inv_logWrite (h : Inv sb d0 s) (hstep : logWrite sb s p k = some t) : Inv sb d0 t := by
  unfold logWrite at hstep
  cases hop : opOf s p with
  | none => rw [hop] at hstep; cases hstep
  | some o =>
    rw [hop] at hstep
    simp only at hstep
    by_cases hc : k ∈ s.cache.lru ∧ (s.cache.buf k).lock = some p ∧
        Home sb (s.cache.buf k).blockno
    case neg => rw [if_neg hc] at hstep; cases hstep
    rw [if_pos hc] at hstep
    obtain ⟨hk, hlock, hhome⟩ := hc
    have hidle := idle_of_op h (mem_ops_of_opOf hop)
    have hpc := h.pcInv
    unfold PcInv at hpc
    rw [hidle] at hpc
    have hcache := h.cache
    unfold pins at hcache
    rw [hidle] at hcache
    set n := (s.cache.buf k).blockno with hn
    set d := (s.cache.buf k).data with hd
    -- the new logical content
    have hview : ∀ l c dr i, view sb d0 { s with
        log := l, cache := c, dirty := dr, issued := i, pending := s.pending ++ [⟨o, n, d⟩] }
        = update (view sb d0 s) n d := by
      intro l c dr i
      funext b
      by_cases hb : Home sb b
      · rw [view_home (by rw [hidle]; rfl) hb]
        show applyRecs (committed d0 s) (s.pending ++ [⟨o, n, d⟩]) b = _
        rw [current_logWrite]
        by_cases hbn : b = n
        · rw [hbn, update_self, update_self]
        · rw [update_of_ne hbn, update_of_ne hbn,
            view_home (by rw [hidle]; rfl) hb]
      · have hbn : b ≠ n := fun hbn => hb (hbn ▸ hhome)
        rw [view_log hb, update_of_ne hbn, view_log hb]
    have hdirty : ∀ j ∈ s.cache.lru, ∀ q, update s.dirty k none j = some q →
        ∃ o', (q, o') ∈ s.ops := by
      intro j hj q hq
      by_cases hjk : j = k
      · subst hjk
        rw [update_self] at hq
        cases hq
      · rw [update_of_ne hjk] at hq
        exact h.op.dirty j hj q hq
    have hlogged := hcache.logged hk hlock
    unfold Log.logWrite at hstep
    split_ifs at hstep with hfull hout habs
    · -- absorbed
      cases hstep
      exact {
        recoverable := h.recoverable
        cache := by
          rw [hview]
          unfold pins
          rw [hidle]
          exact hlogged
        head := h.head
        pcInv := by
          unfold PcInv
          rw [hidle]
          refine ⟨hpc.1, fun r hr => ?_⟩
          rcases List.mem_append.mp hr with hr | hr
          · exact hpc.2 r hr
          · rw [List.mem_singleton] at hr
            subst hr
            exact habs
        op := { h.op with dirty := hdirty } }
    · -- a new block of the header, pinned
      cases hstep
      exact {
        recoverable := h.recoverable
        cache := by
          rw [hview]
          unfold pins
          rw [hidle]
          exact hlogged.bpin hk hlock habs
        head := {
          size := h.head.size
          nodup := List.nodup_append.mpr ⟨h.head.nodup, List.nodup_singleton n, fun x hx y hy hxy => by
            rw [List.mem_singleton] at hy
            exact habs (hy ▸ hxy ▸ hx)⟩
          home := fun b hb => by
            rcases List.mem_append.mp hb with hb | hb
            · exact h.head.home b hb
            · rw [List.mem_singleton] at hb
              subst hb
              exact ⟨hhome, (h.cache.ok k hk).bound⟩
          fits := by
            have := h.head.size
            rw [List.length_append, List.length_singleton]
            omega
          small := by
            rw [List.length_append, List.length_singleton]
            simp only [LOGSIZE, MAXOPBLOCKS] at hfull
            omega }
        pcInv := by
          unfold PcInv
          rw [hidle]
          refine ⟨hpc.1, fun r hr => ?_⟩
          rcases List.mem_append.mp hr with hr | hr
          · exact List.mem_append_left _ (hpc.2 r hr)
          · rw [List.mem_singleton] at hr
            subst hr
            exact List.mem_append_right _ List.mem_cons_self
        op := { h.op with dirty := hdirty } }

/-! ## Disk writes -/

/-- `bwrite` by the holder of a buffer. -/
theorem bwrite_setData (d : Block) (hlock : (c.buf k).lock = some p) :
    (c.setData k d).bwrite disk p k = .ok (update disk (c.buf k).blockno d) := by
  unfold Bcache.bwrite Bcache.setData
  rw [Bcache.setBuf_same, if_neg (by simp [hlock])]

/-! ## Recovery -/

theorem inv_readHead (h : Inv sb d0 s) (hstep : stepReadHead sb s p k = some t) : Inv sb d0 t := by
  unfold stepReadHead at hstep
  split_ifs at hstep with hc
  obtain ⟨hpc, hk, hlock, hblock⟩ := hc
  cases hstep
  have hpcInv := h.pcInv
  unfold PcInv at hpcInv
  rw [hpc] at hpcInv
  have hboot : s.pc.booting = true := by rw [hpc]; rfl
  have hdata : (s.cache.buf k).data = s.disk sb.logstart := by
    rw [h.cache.data_of_lock hk hlock (clean_of_not_idle h (by rw [hpc]; simp) hk),
      view_booting hboot, hblock]
  have hcache := h.cache
  unfold pins at hcache
  rw [hpc] at hcache
  have hbounds := readHead_bounds (s.disk sb.logstart)
  rw [hdata]
  exact {
    recoverable := h.recoverable
    cache := hcache.of_view (view_congr hboot.symm rfl rfl rfl)
    head := {
      size := h.head.size
      nodup := h.recoverable.nodup
      home := fun b hb => ⟨h.recoverable.home b hb, hbounds.2 b hb⟩
      fits := h.recoverable.fits
      small := hbounds.1 }
    pcInv := ⟨rfl, hpcInv.2, Nat.zero_le _, fun b hb => by cases hb⟩
    op := h.op.moved rfl rfl rfl rfl (by rw [hpc]; rfl) (by simp [hpc]) (by simp) }

/-- What the loop body of `install_trans` does, in `recover_from_log` as in
`commit`: the home block gets its committed content, on disk and in the cache. -/
theorem installBlock_spec (h : Inv sb d0 s) (hlog : 0 < sb.nlog) (hpc : s.pc ≠ .idle)
    (hhead : readHead (s.disk sb.logstart) = s.log.lh)
    (hstep : installBlock sb s p tail klog kdst = some t) :
    ∃ b, s.log.lh[tail]? = some b ∧ s.cache.Holds p kdst b ∧ Home sb b ∧ t = { s with
        cache := s.cache.setData kdst (committed d0 s b)
        disk := update s.disk b (committed d0 s b) } ∧
      Recoverable sb t.disk (committed d0 s) ∧
      readHead (t.disk sb.logstart) = s.log.lh := by
  unfold installBlock at hstep
  cases hb : s.log.lh[tail]? with
  | none => rw [hb] at hstep; cases hstep
  | some b =>
    rw [hb] at hstep
    simp only at hstep
    split_ifs at hstep with hc
    obtain ⟨⟨hlk, hllock, hlblock⟩, hdk, hdlock, hdblock⟩ := hc
    have hmem : b ∈ s.log.lh := List.mem_of_getElem? hb
    have hhome := (h.head.home b hmem).1
    have hlt : tail < sb.nlog - 1 :=
      lt_of_lt_of_le (List.getElem?_eq_some_iff.mp hb).1 h.head.fits
    have hdata : (s.cache.buf klog).data = committed d0 s b := by
      rw [h.cache.data_of_lock hlk hllock (clean_of_not_idle h hpc hlk), hlblock,
        view_log (not_home_slot hlt)]
      exact h.recoverable.slots tail b (by rw [hhead]; exact hb)
    rw [bwrite_setData _ hdlock, hdblock, hdata] at hstep
    cases hstep
    refine ⟨b, rfl, ⟨hdk, hdlock, hdblock⟩, hhome, rfl, recoverable_writeHome h.recoverable hlog hhome, ?_⟩
    simp only
    rw [update_of_ne (ne_logstart hlog hhome).symm]
    exact hhead

/-- The blocks that are installed after one more round. -/
theorem installed_succ {lh : List ℕ} {base : Disk} (hb : lh[tail]? = some b)
    (hdone : ∀ x ∈ lh.take tail, disk x = base x) :
    ∀ x ∈ lh.take (tail + 1), update disk b (base b) x = base x := by
  intro x hx
  by_cases hxb : x = b
  · rw [hxb, update_self]
  · rw [update_of_ne hxb]
    rw [List.take_add_one, hb, Option.toList_some, List.mem_append, List.mem_singleton] at hx
    exact hdone x (hx.resolve_right hxb)

theorem inv_install (h : Inv sb d0 s) (hlog : 0 < sb.nlog)
    (hstep : stepInstall sb s p klog kdst = some t) : Inv sb d0 t := by
  have hpcInv := h.pcInv
  unfold PcInv at hpcInv
  have hcache := h.cache
  unfold pins at hcache
  unfold stepInstall at hstep
  split at hstep
  case h_1 tail hpc =>
    rw [hpc] at hpcInv hcache
    obtain ⟨hhead, hpend, htail, hdone⟩ := hpcInv
    obtain ⟨u, hu, rfl⟩ := Option.map_eq_some_iff.mp hstep
    obtain ⟨b, hb, ⟨hdk, hdlock, hdblock⟩, hhome, rfl, hrec, hhead'⟩ :=
      installBlock_spec h hlog (by rw [hpc]; simp) hhead hu
    have hset := hcache.setData (committed d0 s b) hdk hdlock
    rw [hdblock, view_booting (by rw [hpc]; rfl)] at hset
    exact {
      recoverable := hrec
      cache := hset.of_view (view_booting rfl)
      head := h.head
      pcInv := ⟨hhead', hpend, (List.getElem?_eq_some_iff.mp hb).1, installed_succ hb hdone⟩
      op := h.op.moved rfl rfl rfl rfl (by rw [hpc]; rfl) (by simp [hpc]) (by simp) }
  case h_2 q tail hpc =>
    rw [hpc] at hpcInv hcache
    split_ifs at hstep with hq
    subst hq
    obtain ⟨hhead, hpend, htail, hdone⟩ := hpcInv
    obtain ⟨u, hu, rfl⟩ := Option.map_eq_some_iff.mp hstep
    obtain ⟨b, hb, ⟨hdk, hdlock, hdblock⟩, hhome, rfl, hrec, hhead'⟩ :=
      installBlock_spec h hlog (by rw [hpc]; simp) hhead hu
    have hlt := (List.getElem?_eq_some_iff.mp hb).1
    have hboot : s.pc.booting = false := by rw [hpc]; rfl
    -- the logical content of the block stays what it is
    have hview : ∀ c pc, pc.booting = false → view sb d0 { s with
        cache := c, disk := update s.disk b (committed d0 s b), pc := pc }
        = update (view sb d0 s) b (committed d0 s b) := by
      intro c pc hb'
      funext x
      by_cases hx : Home sb x
      · rw [view_home hb' hx]
        by_cases hxb : x = b
        · rw [hxb, update_self]
          exact congrFun (current_of_no_pending hpend) b
        · rw [update_of_ne hxb, view_home hboot hx]
          rfl
      · rw [view_log hx]
        have hxb : x ≠ b := fun heq => hx (heq ▸ hhome)
        simp only
        rw [update_of_ne hxb, update_of_ne hxb, view_log hx]
    have hdrop : s.log.lh.drop tail = b :: s.log.lh.drop (tail + 1) := by
      rw [List.drop_eq_getElem_cons hlt, (List.getElem?_eq_some_iff.mp hb).2]
    have hset := hcache.setData (committed d0 s b) hdk hdlock
    rw [hdblock] at hset
    have hnd : (b :: s.log.lh.drop (tail + 1)).Nodup :=
      hdrop ▸ h.head.nodup.sublist (List.drop_sublist tail s.log.lh)
    simp only [hdrop] at hset
    have hunpin := hset.bunpin (k := kdst) (p := q) hdk
      (by unfold Bcache.setData; rw [Bcache.setBuf_same]; exact hdlock)
      (by unfold Bcache.setData; rw [Bcache.setBuf_same]; exact hdblock)
      (List.nodup_cons.mp hnd).1
    exact {
      recoverable := hrec
      cache := hunpin.of_view (hview _ _ rfl)
      head := h.head
      pcInv := ⟨hhead', hpend, hlt, installed_succ hb hdone⟩
      op := h.op.moved rfl rfl rfl rfl (by rw [hpc]; rfl) (by simp [hpc]) (by simp) }
  case h_3 => cases hstep

/-! ## Commit -/

/-- A write into the log area changes the view of that block and of no other. -/
theorem view_writeLog (hdisk : t.disk = update s.disk b d) (hb : ¬ Home sb b)
    (hpc : t.pc.booting = s.pc.booting) (hcur : current d0 t = current d0 s) :
    view sb d0 t = update (view sb d0 s) b d := by
  funext x
  by_cases hxb : x = b
  · rw [hxb, update_self, view_log hb, hdisk, update_self]
  · rw [update_of_ne hxb]
    unfold view
    rw [hpc, hcur, hdisk, update_of_ne hxb]

theorem inv_writeLog (h : Inv sb d0 s) {kto kfrom : ℕ}
    (hstep : stepWriteLog sb s p kto kfrom = some t) : Inv sb d0 t := by
  have hpcInv := h.pcInv
  unfold PcInv at hpcInv
  have hcache := h.cache
  unfold pins at hcache
  unfold stepWriteLog at hstep
  split at hstep
  case h_1 q tail hpc =>
    rw [hpc] at hpcInv hcache
    obtain ⟨hhead, hpend, htail, hwritten⟩ := hpcInv
    cases hb : s.log.lh[tail]? with
    | none => rw [hb] at hstep; cases hstep
    | some b =>
      rw [hb] at hstep
      simp only at hstep
      split_ifs at hstep with hc
      obtain ⟨rfl, ⟨htk, htlock, htblock⟩, hfk, hflock, hfblock⟩ := hc
      have hboot : s.pc.booting = false := by rw [hpc]; rfl
      have hlen := (List.getElem?_eq_some_iff.mp hb).1
      have hlt : tail < sb.nlog - 1 := lt_of_lt_of_le hlen h.head.fits
      have hhome := (h.head.home b (List.mem_of_getElem? hb)).1
      have hdata : (s.cache.buf kfrom).data = current d0 s b := by
        rw [h.cache.data_of_lock hfk hflock (clean_of_not_idle h (by rw [hpc]; simp) hfk),
          hfblock, view_home hboot hhome]
      rw [bwrite_setData _ htlock, htblock, hdata] at hstep
      cases hstep
      have hset := hcache.setData (current d0 s b) htk htlock
      rw [htblock] at hset
      exact {
        recoverable := recoverable_writeSlot h.recoverable hhead hlt _
        cache := hset.of_view (view_writeLog rfl (not_home_slot hlt) hboot.symm rfl)
        head := h.head
        pcInv := by
          refine ⟨?_, hpend, hlen, fun i hi c hc => ?_⟩
          · simp only
            rw [update_of_ne (by omega)]
            exact hhead
          · simp only at hc ⊢
            by_cases hit : i = tail
            · subst hit
              rw [hb] at hc
              cases hc
              rw [update_self]
              rfl
            · rw [update_of_ne (by omega)]
              exact hwritten i (by omega) c hc
        op := h.op.moved rfl rfl rfl rfl (by rw [hpc]; rfl) (by simp [hpc]) (by simp) }
  case h_2 => cases hstep

/-- The content after one more group is the content the group saw. -/
theorem applyRecs_commit (d0 : Disk) (s : St) :
    applyRecs d0 (s.groups ++ [s.pending]).flatten = current d0 s := by
  rw [List.flatten_append, List.flatten_singleton, applyRecs_append]
  rfl

theorem inv_writeHead (h : Inv sb d0 s) (hlog : 0 < sb.nlog)
    (hstep : stepWriteHead sb s p k = some t) : Inv sb d0 t := by
  have hpcInv := h.pcInv
  unfold PcInv at hpcInv
  have hcache := h.cache
  unfold pins at hcache
  unfold stepWriteHead at hstep
  split at hstep
  case h_1 q tail hpc =>
    rw [hpc] at hpcInv hcache
    obtain ⟨hhead, hpend, -, hwritten⟩ := hpcInv
    split_ifs at hstep with hc
    obtain ⟨rfl, rfl, hk, hlock, hblock⟩ := hc
    have hboot : s.pc.booting = false := by rw [hpc]; rfl
    have hnot : ¬ Home sb sb.logstart := fun hh => ne_logstart hlog hh rfl
    simp only [bwrite_setData _ hlock, hblock] at hstep
    cases hstep
    have hset := hcache.setData (writeHead (s.cache.buf k).data s.log.lh) hk hlock
    rw [hblock] at hset
    have hnew := readHead_writeHead (s.cache.buf k).data s.log.lh h.head.small
      fun b hb => (h.head.home b hb).2
    have hcommit := applyRecs_commit d0 s
    exact {
      recoverable := by
        unfold committed
        simp only
        rw [hcommit]
        refine ⟨?_, ?_, ?_, ?_, ?_⟩
        · rw [update_self, hnew]
          exact h.head.nodup
        · rw [update_self, hnew]
          exact fun b hb => (h.head.home b hb).1
        · rw [update_self, hnew]
          exact h.head.fits
        · intro i b hi
          rw [update_self, hnew] at hi
          rw [update_of_ne (by omega)]
          exact hwritten i (List.getElem?_eq_some_iff.mp hi).1 b hi
        · intro b hb hnmem
          rw [update_self, hnew] at hnmem
          rw [update_of_ne (ne_logstart hlog hb), disk_home h hhead hb,
            current_eq_committed hpend hnmem]
      cache := hset.of_view (view_writeLog rfl hnot hboot.symm hcommit)
      head := h.head
      pcInv := by
        refine ⟨?_, rfl, Nat.zero_le _, fun b hb => by cases hb⟩
        simp only
        rw [update_self]
        exact hnew
      op := h.op.moved rfl rfl rfl rfl (by rw [hpc]; rfl) (by simp [hpc]) (by simp) }
  case h_2 => cases hstep

/-- Clearing the header, with all blocks at home. -/
theorem inv_clear (h : Inv sb d0 s) (hlog : 0 < sb.nlog) {next : Pc} (hpend : s.pending = [])
    (hpc : s.pc ≠ .idle) (hall : ∀ b, Home sb b → s.disk b = committed d0 s b) (hpins : pins s = [])
    (hnext : next = .idle ∧ s.pc.booting = true ∨ next = .done p ∧ s.pc.booting = false)
    (hstep : clearHead sb s p k next = some t) : Inv sb d0 t := by
  unfold clearHead at hstep
  split_ifs at hstep with hc
  obtain ⟨hk, hlock, hblock⟩ := hc
  simp only [bwrite_setData _ hlock, hblock] at hstep
  cases hstep
  have hnot : ¬ Home sb sb.logstart := fun hh => ne_logstart hlog hh rfl
  have hops := h.op.quiet hpc
  have hset := h.cache.setData (writeHead (s.cache.buf k).data []) hk hlock
  rw [hblock, hpins] at hset
  have hrec := recoverable_clear hlog hall (s.cache.buf k).data
  have hhead : readHead (update s.disk sb.logstart
      (writeHead (s.cache.buf k).data []) sb.logstart) = [] := by
    rw [update_self]
    exact readHead_writeHead _ [] (by norm_num) (fun b hb => by cases hb)
  have hcur : current d0 s = committed d0 s := current_of_no_pending hpend
  -- a home block shows the committed content before and after
  have hview : ∀ l c pc, pc.booting = false → view sb d0 { s with
      cache := c, log := l, pc := pc,
      disk := update s.disk sb.logstart (writeHead (s.cache.buf k).data []) }
      = update (view sb d0 s) sb.logstart (writeHead (s.cache.buf k).data []) := by
    intro l c pc hb'
    funext x
    by_cases hx : Home sb x
    · rw [view_home hb' hx, update_of_ne (ne_logstart hlog hx)]
      show current d0 s x = view sb d0 s x
      unfold view
      rw [hcur]
      split_ifs
      · rfl
      · exact (hall x hx).symm
    · rw [view_log hx]
      by_cases hxl : x = sb.logstart
      · rw [hxl, update_self]
        exact update_self ..
      · simp only
        rw [update_of_ne hxl, update_of_ne hxl, view_log hx]
  have hlh : HeadInv sb { s.log with lh := [] } := {
    size := h.head.size
    nodup := List.nodup_nil
    home := fun b hb => by cases hb
    fits := Nat.zero_le _
    small := by norm_num }
  rcases hnext with ⟨rfl, hboot⟩ | ⟨rfl, hboot⟩
  · exact {
      recoverable := hrec
      cache := hset.of_view (hview _ _ _ rfl)
      head := hlh
      pcInv := ⟨hhead, fun r hr => by simp only [hpend] at hr; cases hr⟩
      op := {
        outstanding := h.op.outstanding
        quiet := fun _ => hops
        committing := by
          simp only [ne_eq, not_true_eq_false, and_false, iff_false]
          intro hcommit
          rw [(h.op.committing.mp hcommit).1] at hboot
          cases hboot
        dirty := h.op.dirty } }
  · exact {
      recoverable := hrec
      cache := hset.of_view (hview _ _ _ rfl)
      head := hlh
      pcInv := ⟨hhead, hpend, rfl⟩
      op := {
        outstanding := h.op.outstanding
        quiet := fun _ => hops
        committing := by
          simp only [Pc.booting, ne_eq, reduceCtorEq, not_false_eq_true, and_self, iff_true]
          exact h.op.committing.mpr ⟨hboot, hpc⟩
        dirty := h.op.dirty } }

theorem inv_clearHead (h : Inv sb d0 s) (hlog : 0 < sb.nlog)
    (hstep : stepClearHead sb s p k = some t) : Inv sb d0 t := by
  have hpcInv := h.pcInv
  unfold PcInv at hpcInv
  unfold stepClearHead at hstep
  split at hstep
  case h_1 tail hpc =>
    rw [hpc] at hpcInv
    obtain ⟨hhead, hpend, -, hdone⟩ := hpcInv
    split_ifs at hstep with hc
    subst hc
    refine inv_clear h hlog hpend (by rw [hpc]; simp) (fun b hb => ?_)
      (by unfold pins; rw [hpc]) (Or.inl ⟨rfl, by rw [hpc]; rfl⟩) hstep
    exact disk_installed h hhead hdone hb (by rw [List.drop_length]; exact List.not_mem_nil)
  case h_2 q tail hpc =>
    rw [hpc] at hpcInv
    obtain ⟨hhead, hpend, -, hdone⟩ := hpcInv
    split_ifs at hstep with hc
    obtain ⟨rfl, rfl⟩ := hc
    refine inv_clear h hlog hpend (by rw [hpc]; simp) (fun b hb => ?_)
      (by unfold pins; rw [hpc]; exact List.drop_length) (Or.inr ⟨rfl, by rw [hpc]; rfl⟩) hstep
    exact disk_installed h hhead hdone hb (by rw [List.drop_length]; exact List.not_mem_nil)
  case h_3 => cases hstep

end Crash
