/-
# Processes and their current directories

`chdir`, `fork`, `exit`, `exec` and `wait`, as far as they use inodes.  `chdir` and `exit`
call `iput(p->cwd)` before they change `p->cwd`, so for a moment the process has a
directory without a reference.  `iput` does not look at processes, so it may be taken to
run after the field has been cleared.
-/
import Xv6.FsFiles

namespace Fs

open Hoare
open Calls (NFILE NOFILE first)
open Proc (NPROC)

variable {sb : Superblock} {w : Prop} {g : Watch} {o : ℕ} {H B : Multiset Ip} {ip : Ip} {s t u : State}
variable {p : Fin NPROC} {f : Fin NFILE} {α β : Type}

/-! ## Programs that do not look at processes -/

/-- The result with other processes. -/
def withProc (P : Fin NPROC → Process) :
    EStateM.Result String State α → EStateM.Result String State α
  | .ok a t => .ok a { t with proc := P }
  | .error msg t => .error msg { t with proc := P }

/-- The program neither reads nor writes the processes. -/
def Blind (c : FsM α) : Prop := ∀ s P, c { s with proc := P } = withProc P (c s)

theorem Blind.ret (a : α) : Blind (pure a : FsM α) := fun _ _ => rfl

variable {c : FsM α} {x : Process} {path : Option (List UInt8)} {fd : ℤ}

theorem Blind.bind {f : α → FsM β} (hc : Blind c) (hf : ∀ a, Blind (f a)) : Blind (c >>= f) := by
  intro s P
  show EStateM.bind c f { s with proc := P } = withProc P (EStateM.bind c f s)
  unfold EStateM.bind
  rw [hc s P]
  cases c s with
  | ok a t => exact hf a t P
  | error msg t => rfl

theorem Blind.ite {φ : Prop} [Decidable φ] {d : FsM α} (hc : Blind c) (hd : Blind d) :
    Blind (if φ then c else d) := by
  by_cases h : φ
  · rw [if_pos h]
    exact hc
  · rw [if_neg h]
    exact hd

theorem logWrite_blind (x : Target) : Blind (logWrite x) := by
  intro s P
  unfold logWrite
  by_cases h : s.outstanding < 1
  · rw [if_pos h, if_pos h]
    rfl
  · rw [if_neg h, if_neg h]
    rfl

theorem bfree_blind (b : ℕ) : Blind (bfree b) :=
  Blind.bind (fun _ _ => rfl) fun _ => Blind.ite (fun _ _ => rfl)
    (Blind.bind (fun _ _ => rfl) fun _ => logWrite_blind _)

theorem edit_blind (ip : Ip) (f : Dinode → Dinode) : Blind (edit ip f) := fun _ _ => rfl

theorem inode_blind (ip : Ip) : Blind (inode ip) := fun _ _ => rfl

theorem iupdate_blind (ip : Ip) : Blind (iupdate ip) :=
  (inode_blind ip).bind fun _ => Blind.bind (fun _ _ => rfl) fun _ => logWrite_blind _

theorem truncDirect_blind (ip : Ip) (n : ℕ) : ∀ i, Blind (truncDirect ip n i) := by
  induction n with
  | zero => exact fun _ => Blind.ret ()
  | succ n ih =>
    intro i
    refine (inode_blind ip).bind fun x => Blind.ite ?_ (ih (i + 1))
    exact (bfree_blind _).bind fun _ => (edit_blind ip _).bind fun _ => ih (i + 1)

theorem truncIndirect_blind (a : ℕ → UInt8) (n : ℕ) : ∀ j, Blind (truncIndirect a n j) := by
  induction n with
  | zero => exact fun _ => Blind.ret ()
  | succ n ih =>
    intro j
    exact Blind.ite ((bfree_blind _).bind fun _ => ih (j + 1)) (ih (j + 1))

theorem itrunc_blind (ip : Ip) : Blind (itrunc ip) := by
  have hend : Blind (edit ip (fun d => { d with size := 0 }) >>= fun _ => iupdate ip) :=
    (edit_blind ip _).bind fun _ => iupdate_blind ip
  refine (truncDirect_blind ip NDIRECT 0).bind fun _ => (inode_blind ip).bind fun x =>
    Blind.ite ?_ hend
  refine Blind.bind (fun _ _ => rfl) fun a => (truncIndirect_blind a NINDIRECT 0).bind fun _ => ?_
  exact (bfree_blind _).bind fun _ => (edit_blind ip _).bind fun _ => hend

theorem ifree_blind (ip : Ip) : Blind (ifree ip) :=
  (itrunc_blind ip).bind fun _ => (edit_blind ip _).bind fun _ => iupdate_blind ip

theorem acquiresleep_blind (ip : Ip) : Blind (acquiresleep ip) := by
  intro s P
  unfold acquiresleep
  by_cases h : s.locked ip = true
  · rw [if_pos h, if_pos h]
    rfl
  · rw [if_neg h, if_neg h]
    rfl

theorem iput_blind (ip : Ip) : Blind (iput ip) := by
  refine (inode_blind ip).bind fun x => Blind.ite ?_ fun _ _ => rfl
  refine (acquiresleep_blind ip).bind fun _ => (ifree_blind ip).bind fun _ => ?_
  exact Blind.bind (fun _ _ => rfl) fun _ => (inode_blind ip).bind fun _ _ _ => rfl

/-! ## Current directories -/

theorem cwdRef_none (h : x.cwd = none) (e : Ip) : cwdRef x e = 0 := by
  unfold cwdRef
  rw [h]
  exact if_neg (by simp)

/-- A reference is held by the process or by the call. -/
theorem cwdRef_some (h : x.cwd = some ip) (H : Multiset Ip) (e : Ip) :
    cwdRef x e + H.count e = (ip ::ₘ H).count e := by
  unfold cwdRef
  rw [h, Multiset.count_cons]
  by_cases he : e = ip
  · simp [he]
    omega
  · have hne : ip ≠ e := fun heq => he heq.symm
    simp [he, hne]

/-- The current directory of process `p` is cleared. -/
def clearCwd (p : Fin NPROC) (s : State) : State :=
  { s with proc := Function.update s.proc p { s.proc p with cwd := none } }

/-- The process gives its reference to the call. -/
theorem Settled.clearCwd (h : Settled sb w g o H s) (hcwd : (s.proc p).cwd = some ip) :
    Settled sb w g o (ip ::ₘ H) (clearCwd p s) := by
  refine h.setProc (fun e => ?_) fun _ => rfl
  rw [cwdRef_none (by rfl), cwdRef_some hcwd]
  exact Nat.zero_add _

/-- **`iput(p->cwd)`**: as if the field had been cleared before. -/
theorem putCwd_ends (h : Settled sb w g o H s) (ho : w → 1 ≤ o) :
    Ends (putCwd p s) (fun _ t => ∃ u, t = { u with proc := s.proc } ∧ Settled sb w g o H u ∧
      Keeps H (clearCwd p s) u) (Fine w g) := by
  unfold putCwd
  rw [bind_of_ok (rfl : cwd p s = .ok _ s)]
  cases hcwd : (s.proc p).cwd with
  | none => exact h.inv.fine (by decide)
  | some ip =>
    have hput := (h.clearCwd hcwd).iput ho
    have hblind : iput ip s = withProc s.proc (iput ip (clearCwd p s)) :=
      iput_blind ip (clearCwd p s) s.proc
    simp only
    rw [hblind]
    cases hrun : iput ip (clearCwd p s) with
    | ok a u =>
      rw [hrun] at hput
      exact ⟨u, rfl, hput⟩
    | error msg u =>
      rw [hrun] at hput
      exact hput

/-- **`sys_chdir`.** -/
theorem sysChdir_ends (h : Settled sb w g 0 B s) (hrun : (s.proc p).state = .running)
    (hstart : ∀ path', argstr path = some path' → Starts g p path' s) :
    Ends (sysChdir sb p path s) (fun _ t => Settled sb w g 0 B t) (Fine w g) := by
  unfold sysChdir
  rw [beginOp_bind]
  cases hpath : argstr path with
  | none => exact h.begin.finish
  | some path' =>
    simp only
    apply (namei_ends h.begin.inv (fun _ => le_rfl) p path' (hstart path' hpath)).bind
    rintro _ t ⟨(_ | ⟨ip, nm⟩), rfl, hwalk⟩
    · exact (h.begin.walk hwalk).finish
    have ht : Settled sb w g 1 (ip ::ₘ B) t := h.begin.walk hwalk
    have hip := Multiset.mem_cons_self ip B
    simp only [Option.map_some]
    apply (ht.lock (ht.pos hip)).bind
    rintro _ u ⟨hu, hload⟩
    rw [inode_bind]
    by_cases hdir : (u.itable ip).d.type ≠ T_DIR
    · rw [if_pos hdir]
      exact hu.unlockputEnd (-1)
    rw [if_neg hdir]
    apply (hu.unlock (hu.pos hip)).bind
    rintro _ _ ⟨hy, rfl⟩
    apply (putCwd_ends hy fun _ => le_rfl).bind
    rintro _ _ ⟨x, rfl, hx, hkeeps⟩
    rw [endOp_bind, myproc_bind]
    -- the reference of the walk becomes that of the process
    have hproc : x.proc = Function.update u.proc p { u.proc p with cwd := none } := hkeeps.proc
    have hset : Settled sb w g 0 B { x.ended with
        proc := Function.update x.proc p { u.proc p with cwd := some ip } } := by
      refine hx.finish.setProc (fun e => ?_) fun hstop => absurd ?_ hstop
      · rw [cwdRef_some (by rfl), cwdRef_none (by simp [hproc])]
        exact (Nat.zero_add _).symm
      · show (u.proc p).state = .running
        rw [hload.proc, hwalk.keeps.proc]
        exact hrun
    rw [hproc, Function.update_idem] at hset
    exact hset

/-! ## fork and exit -/

/-- **`idup`.** -/
theorem Settled.idup (h : Settled sb w g o H s) (hpos : 0 < (s.itable ip).ref) :
    Ends (Fs.idup ip s) (fun _ t => Settled sb w g o (ip ::ₘ H) t ∧ t.proc = s.proc)
      (Fine w g) := by
  obtain ⟨t, hrun, hgot⟩ := idup_got hpos
  rw [hrun]
  obtain ⟨hinv, hkeeps⟩ := h.inv.got hgot fun hg => (h.inv.live hg).alloc ip hpos
  exact ⟨h.same hinv hkeeps (Multiset.le_cons_self H ip) fun _ => hgot.sameDisk, hkeeps.proc⟩

theorem dupFiles_ends {ofile : Fin NOFILE → Option (Fin NFILE)} (fds : List (Fin NOFILE)) :
    ∀ s, Settled sb w g o H s → Ends (dupFiles ofile fds s)
      (fun _ t => Settled sb w g o H t ∧ t.proc = s.proc) (Fine w g) := by
  induction fds with
  | nil => exact fun s h => ⟨h, rfl⟩
  | cons fd fds ih =>
    intro s h
    unfold dupFiles
    cases ofile fd with
    | none => exact ih s h
    | some f =>
      apply h.filedup.bind
      rintro _ t ⟨ht, hproc, -⟩
      exact (ih t ht).post fun _ u hu => ⟨hu.1, hu.2.trans hproc⟩

/-- **`fork`**: the child has the same current directory. -/
theorem fork_ends {copied : Bool} (h : Settled sb w g o H s) :
    Ends (fork p copied s) (fun _ t => Settled sb w g o H t) (Fine w g) := by
  unfold fork
  rw [bind_of_ok (rfl : freeProc s = .ok _ s)]
  cases hfree : first fun q => decide ((s.proc q).state = .unused) with
  | none => exact h
  | some np =>
    have hunused : (s.proc np).state = .unused := by simpa using first_some hfree
    simp only
    cases copied with
    | false => exact h
    | true =>
      rw [if_neg (by decide), myproc_bind]
      apply (dupFiles_ends _ s h).bind
      rintro _ t ⟨ht, hproc⟩
      cases hcwd : (s.proc p).cwd with
      | none => exact ht.inv.fine (by decide)
      | some ip =>
        simp only
        apply (ht.idup (ht.inv.refs.pos_of_cwd (p := p) (by rw [hproc]; exact hcwd))).bind
        rintro _ u ⟨hu, hproc'⟩
        refine hu.setProc (p := np) (fun e => ?_) fun hstop => absurd rfl hstop
        have hgone : (u.proc np).cwd = none := by
          apply hu.inv.refs.gone
          rw [hproc', hproc, hunused]
          decide
        rw [cwdRef_some (by rfl), cwdRef_none hgone]
        exact (Nat.zero_add _).symm

theorem closeFiles_ends (fds : List (Fin NOFILE)) : ∀ s, Settled sb w g o H s →
    Ends (closeFiles p fds s) (fun _ t => Settled sb w g o H t) (Fine w g) := by
  induction fds with
  | nil => exact fun s h => h
  | cons fd fds ih =>
    intro s h
    unfold closeFiles
    rw [myproc_bind]
    cases (s.proc p).ofile fd with
    | none => exact ih s h
    | some f =>
      apply h.fileclose.bind
      rintro _ t ht
      rw [myproc_bind, bind_of_ok (rfl : setProc p _ t = .ok () _)]
      exact ih _ ht.setFds

/-- **`exit`.** -/
theorem exit_ends (h : Settled sb w g 0 H s) :
    Ends (exit p s) (fun _ t => Settled sb w g 0 H t) (Fine w g) := by
  unfold exit
  by_cases hinit : p = initproc
  · rw [if_pos hinit]
    exact h.inv.fine (by decide)
  rw [if_neg hinit]
  apply (closeFiles_ends _ s h).bind
  rintro _ t ht
  rw [beginOp_bind]
  apply (putCwd_ends ht.begin fun _ => le_rfl).bind
  rintro _ _ ⟨x, rfl, hx, hkeeps⟩
  rw [endOp_bind, myproc_bind]
  have hproc : x.proc = Function.update t.proc p { t.proc p with cwd := none } := hkeeps.proc
  have hset : Settled sb w g 0 H { x.ended with
      proc := Function.update x.proc p { t.proc p with cwd := none, state := .zombie } } := by
    refine hx.finish.setProc (fun e => ?_) fun _ => rfl
    rw [cwdRef_none (by rfl), cwdRef_none (by simp [hproc])]
  rw [hproc, Function.update_idem] at hset
  exact hset

/-- **`wait`** frees the slot of a child that has exited. -/
theorem reap_ends {q : Fin NPROC} (h : Settled sb w g o H s) :
    Ends (reap q s) (fun _ t => Settled sb w g o H t) (Fine w g) := by
  unfold reap
  rw [myproc_bind]
  by_cases hz : (s.proc q).state = .zombie
  · rw [if_pos hz]
    have hgone := h.inv.refs.gone q (by rw [hz]; decide)
    exact h.setProc (fun _ => rfl) fun _ => hgone
  · rw [if_neg hz]
    exact h

/-! ## exec -/

theorem readAll_ends (reads : List (ℕ × ℕ)) : ∀ s, Settled sb w g o H s →
    0 < (s.itable ip).ref → (w → (s.itable ip).valid = true) →
    Ends (readAll sb ip reads s) (fun _ t => Settled sb w g o H t) (Fine w g) := by
  induction reads with
  | nil => exact fun s h _ _ => h
  | cons r reads ih =>
    intro s h hpos hv
    obtain ⟨off, n⟩ := r
    unfold readAll
    apply (readi_ends h.inv hpos hv always off n).bind
    rintro _ t ⟨ht, hbody, hsame⟩
    apply ih t (h.same ht (hbody.keeps H) le_rfl fun hg => ?_)
    · rw [hbody.ref]
      exact hpos
    · rw [hbody.valid]
      exact hv
    · rw [hsame (h.inv.gw hg)]
      exact SameDisk.refl s

/-- **`exec`.** -/
theorem sysExec_ends {reads : List (ℕ × ℕ)} (h : Settled sb w g 0 B s)
    (hstart : ∀ path', argstr path = some path' → Starts g p path' s) :
    Ends (sysExec sb p path reads s) (fun _ t => Settled sb w g 0 B t) (Fine w g) := by
  unfold sysExec
  cases hpath : argstr path with
  | none => exact h
  | some path' =>
    simp only
    unfold exec
    rw [beginOp_bind]
    apply (namei_ends h.begin.inv (fun _ => le_rfl) p path' (hstart path' hpath)).bind
    rintro _ t ⟨(_ | ⟨ip, nm⟩), rfl, hwalk⟩
    · exact (h.begin.walk hwalk).finish
    have ht : Settled sb w g 1 (ip ::ₘ B) t := h.begin.walk hwalk
    have hip := Multiset.mem_cons_self ip B
    simp only [Option.map_some]
    apply (ht.lock (ht.pos hip)).bind
    rintro _ u ⟨hu, hload⟩
    apply (readAll_ends reads u hu (hu.pos hip) fun _ => hload.valid).bind
    rintro _ x hx
    exact hx.unlockputEnd 0

/-! ## Descriptors -/

theorem argfd_ok (p : Fin NPROC) (fd : ℤ) (s : State) : ∃ r, argfd p fd s = .ok r s := by
  unfold argfd
  rw [myproc_bind]
  by_cases h : 0 ≤ fd ∧ fd.toNat < NOFILE
  · rw [dif_pos h]
    exact ⟨_, rfl⟩
  · rw [dif_neg h]
    exact ⟨_, rfl⟩

theorem withFile_ends {c : Fin NFILE → FsM ℤ} (h : Settled sb w g o H s)
    (hc : ∀ f, Ends (c f s) (fun _ t => Settled sb w g o H t) (Fine w g)) :
    Ends (withFile p fd c s) (fun _ t => Settled sb w g o H t) (Fine w g) := by
  obtain ⟨r, hr⟩ := argfd_ok p fd s
  unfold withFile
  rw [bind_of_ok hr]
  cases r with
  | none => exact h
  | some r => exact hc r.2

theorem sysDup_ends (h : Settled sb w g o H s) :
    Ends (sysDup p fd s) (fun _ t => Settled sb w g o H t) (Fine w g) := by
  obtain ⟨r, hr⟩ := argfd_ok p fd s
  unfold sysDup
  rw [bind_of_ok hr]
  cases r with
  | none => exact h
  | some r =>
    apply (h.fdalloc (p := p) (f := r.2)).bind
    rintro (_ | fd) t ⟨ht, -⟩
    · exact ht
    · apply ht.filedup.bind
      rintro _ u ⟨hu, -⟩
      exact hu

theorem sysClose_ends (h : Settled sb w g o H s) :
    Ends (sysClose p fd s) (fun _ t => Settled sb w g o H t) (Fine w g) := by
  obtain ⟨r, hr⟩ := argfd_ok p fd s
  unfold sysClose
  rw [bind_of_ok hr]
  cases r with
  | none => exact h
  | some r =>
    simp only
    rw [myproc_bind, bind_of_ok (rfl : setProc p _ s = .ok () _)]
    apply (h.setFds.fileclose).bind
    rintro _ t ht
    exact ht

end Fs
