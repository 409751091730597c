/-
# Open files during a call

An open file of an inode or a device has one reference to the entry of the inode.  `open`
hands the reference of the call over to the file, and `fileclose` takes it back to give it
to `iput`.  Reads happen outside of transactions, so they must not allocate.
-/
import Xv6.FsCreate

namespace Fs

open Function Hoare
open Calls (NFILE NOFILE first)
open Proc (NPROC)

variable {sb : Superblock} {w : Prop} {g : Watch} {o : ℕ} {H B : Multiset Ip} {ip : Ip} {s t u : State}
variable {p : Fin NPROC} {f : Fin NFILE}

/-! ## The tables of files and processes -/

theorem shares_setFile (x : File) (e : Ip) :
    shares { s with ftable := update s.ftable f x } e + fileRef (s.ftable f) e =
      shares s e + fileRef x e := by
  have := Tally.sum_update (fun x => fileRef x e) s.ftable f x
  unfold shares
  simp only at this ⊢
  omega

theorem shares_setProc (x : Process) (e : Ip) :
    shares { s with proc := update s.proc p x } e + cwdRef (s.proc p) e =
      shares s e + cwdRef x e := by
  have := Tally.sum_update (fun x => cwdRef x e) s.proc p x
  unfold shares
  simp only at this ⊢
  omega

variable {x : File} {H' : Multiset Ip} {n omode : ℕ} {path : Option (List UInt8)}
    {src : ℕ → Option UInt8}

/-- **An open file changes**, and with it the references of the call. -/
theorem Settled.setFile (h : Settled sb w g o H s)
    (hshare : ∀ e, fileRef x e + H'.count e = fileRef (s.ftable f) e + H.count e)
    (hidle : x.ref = 0 → x.type = .none)
    (hfile : g → 0 < x.ref → x.type = .inode → x.writable = true →
      (s.dinode (s.itable x.ip).inum).type ≠ T_DIR) :
    Settled sb w g o H' { s with ftable := update s.ftable f x } := by
  refine ⟨⟨⟨fun e => ?_, fun f' => ?_, h.inv.refs.gone⟩, h.inv.op, h.inv.gw, fun hw => ?_,
    fun hg => ?_⟩, h.tree, h.owned⟩
  · have h1 := h.inv.refs.exact e
    have h2 := hshare e
    have h3 := shares_setFile (s := s) (f := f) x e
    simp only
    omega
  · show (update s.ftable f x f').ref = 0 → (update s.ftable f x f').type = .none
    by_cases hf : f' = f
    · rw [hf, update_self]
      exact hidle
    · rw [update_of_ne hf]
      exact h.inv.refs.idle f'
  · exact (h.inv.good hw).of_eq rfl rfl rfl rfl
  · have hlive := h.inv.live hg
    refine ⟨hlive.alloc, fun f' => ?_, hlive.sure, hlive.saved⟩
    simp only
    by_cases hf : f' = f
    · rw [hf, update_self]
      exact hfile hg
    · rw [update_of_ne hf]
      exact hlive.files f'

/-- **A process changes**, and with it the references of the call. -/
theorem Settled.setProc {x : Process} (h : Settled sb w g o H s)
    (hshare : ∀ e, cwdRef x e + H'.count e = cwdRef (s.proc p) e + H.count e)
    (hgone : x.state ≠ .running → x.cwd = none) :
    Settled sb w g o H' { s with proc := update s.proc p x } := by
  refine ⟨⟨⟨fun e => ?_, h.inv.refs.idle, fun q => ?_⟩, h.inv.op, h.inv.gw, fun hw => ?_,
    fun hg => ?_⟩, h.tree, h.owned⟩
  · have h1 := h.inv.refs.exact e
    have h2 := hshare e
    have h3 := shares_setProc (s := s) (p := p) x e
    simp only
    omega
  · show (update s.proc p x q).state ≠ .running → (update s.proc p x q).cwd = none
    by_cases hq : q = p
    · rw [hq, update_self]
      exact hgone
    · rw [update_of_ne hq]
      exact h.inv.refs.gone q
  · exact (h.inv.good hw).of_eq rfl rfl rfl rfl
  · exact (h.inv.live hg).of_eq rfl rfl rfl rfl rfl

/-- A field of a process that is neither its state nor its current directory. -/
theorem Settled.setFds {ofile : Fin NOFILE → Option (Fin NFILE)} (h : Settled sb w g o H s) :
    Settled sb w g o H { s with proc := update s.proc p { s.proc p with ofile } } :=
  h.setProc (fun _ => rfl) (h.inv.refs.gone p)

/-- The count of a file changes, but not whether it is 0. -/
theorem Settled.setRef (h : Settled sb w g o H s) (hpos : 0 < (s.ftable f).ref) (hn : 0 < n) :
    Settled sb w g o H { s with ftable := update s.ftable f { s.ftable f with ref := n } } := by
  refine h.setFile (fun e => ?_) (fun h0 => absurd h0 hn.ne') fun hg _ htype hwr => ?_
  · simp only [fileRef, hpos, hn]
  · exact (h.inv.live hg).files f hpos htype hwr

/-- The offset of a file changes. -/
theorem Settled.setOff (h : Settled sb w g o H s) (hx : x = { s.ftable f with off := n }) :
    Settled sb w g o H { s with ftable := update s.ftable f x } := by
  subst hx
  exact h.setFile (fun _ => rfl) (h.inv.refs.idle f) fun hg => (h.inv.live hg).files f

/-- A file with a type is open. -/
theorem Refs.ref_pos (h : Refs H s) (htype : (s.ftable f).type ≠ .none) : 0 < (s.ftable f).ref :=
  Nat.pos_of_ne_zero fun h0 => htype (h.idle f h0)

theorem Refs.pos_of_open (h : Refs H s)
    (htype : (s.ftable f).type = .inode ∨ (s.ftable f).type = .device) :
    0 < (s.itable (s.ftable f).ip).ref := by
  refine h.pos_of_file (h.ref_pos fun hnone => ?_) htype
  rw [hnone] at htype
  rcases htype with ht | ht <;> cases ht

/-! ## Closing and duplicating -/

/-- **`fileclose`.** -/
theorem Settled.fileclose (h : Settled sb w g o H s) :
    Ends (Fs.fileclose f s) (fun _ t => Settled sb w g o H t) (Fine w g) := by
  unfold Fs.fileclose
  rw [file_bind]
  by_cases hlt : (s.ftable f).ref < 1
  · rw [if_pos hlt]
    exact h.inv.fine (by decide)
  rw [if_neg hlt]
  by_cases hone : 1 < (s.ftable f).ref
  · rw [if_pos hone]
    exact h.setRef (by omega) (by omega)
  rw [if_neg hone, bind_of_ok (rfl : Fs.setFile f _ s = .ok () _)]
  have hnone : ∀ e, fileRef { s.ftable f with ref := 0, type := .none } e = 0 := fun e =>
    if_neg fun hc => absurd hc.1 (lt_irrefl 0)
  by_cases htype : (s.ftable f).type = .inode ∨ (s.ftable f).type = .device
  · -- the reference of the file goes to `iput`
    rw [if_pos htype]
    have hput : Settled sb w g o ((s.ftable f).ip ::ₘ H) { s with
        ftable := update s.ftable f { s.ftable f with ref := 0, type := .none } } := by
      refine h.setFile (fun e => ?_) (fun _ => rfl) fun _ h0 => absurd h0 (lt_irrefl 0)
      rw [hnone, Multiset.count_cons]
      unfold fileRef
      by_cases he : e = (s.ftable f).ip
      · rw [if_pos he, if_pos ⟨by omega, htype, he.symm⟩]
        omega
      · rw [if_neg he, if_neg fun hc => he hc.2.2.symm]
        omega
    rw [beginOp_bind]
    apply (hput.begin.iput fun _ => by omega).bind
    rintro _ t ⟨ht, -⟩
    exact ht.finish
  · rw [if_neg htype]
    refine h.setFile (fun e => ?_) (fun _ => rfl) fun _ h0 => absurd h0 (lt_irrefl 0)
    rw [hnone]
    unfold fileRef
    rw [if_neg fun hc => htype hc.2.1]

/-- **`filedup`.** -/
theorem Settled.filedup (h : Settled sb w g o H s) : Ends (Fs.filedup f s)
      (fun _ t => Settled sb w g o H t ∧ t.proc = s.proc ∧ t.itable = s.itable) (Fine w g) := by
  unfold Fs.filedup
  rw [file_bind]
  by_cases hlt : (s.ftable f).ref < 1
  · rw [if_pos hlt]
    exact h.inv.fine (by decide)
  · rw [if_neg hlt]
    exact ⟨h.setRef (by omega) (by omega), rfl, rfl⟩

/-! ## open -/

theorem Emptied.sameAt (h : Emptied sb ip s t)
    (hclean : s.dinode (s.itable ip).inum = (s.itable ip).d)
    (hfile : (s.itable ip).d.type ≠ T_DIR) (i : ℕ) :
    SameAt s.dinode s.block t.dinode t.block i := by
  by_cases hi : i = (s.itable ip).inum
  · obtain ⟨a, hd, -⟩ := h.shape
    subst hi
    refine ⟨?_, fun _ => ?_, fun hdir => ?_⟩
    · rw [h.clean, hd, hclean]
    · rw [h.clean, hd, hclean]
    · rw [hclean] at hdir
      exact absurd hdir hfile
  · rw [h.block]
    exact SameAt.of_eq (h.body.disk i hi)

/-- **`O_TRUNC`.** -/
theorem Settled.openTrunc (h : Settled sb w g 1 H s) (hpos : 0 < (s.itable ip).ref)
    (hv : w → (s.itable ip).valid = true) :
    Ends (Fs.openTrunc ip omode s) (fun _ t => Settled sb w g 1 H t ∧ 0 < (t.itable ip).ref)
      (Fine w g) := by
  unfold Fs.openTrunc
  rw [inode_bind]
  by_cases hc : omode &&& O_TRUNC ≠ 0 ∧ (s.itable ip).d.type = T_FILE
  · rw [if_pos hc]
    apply (itrunc_ends h.inv (fun _ => le_rfl) hpos hv).post
    rintro _ t ⟨ht, hbody, hempty⟩
    refine ⟨h.alike ht (hbody.keeps H) le_rfl fun hg => ?_, by rw [hbody.ref]; exact hpos⟩
    refine (hempty (h.inv.gw hg)).sameAt ((h.inv.good (h.inv.gw hg)).clean ip hpos
      (hv (h.inv.gw hg))) ?_
    rw [hc.2]
    decide
  · rw [if_neg hc]
    exact ⟨h, hpos⟩

/-- A file without a type has no reference. -/
theorem fileRef_none (h : x.type = .none) (e : Ip) : fileRef x e = 0 :=
  if_neg fun hc => by
    rw [h] at hc
    rcases hc.2.1 with hc | hc <;> cases hc

/-- **A new file takes over the reference of the call.** -/
theorem Settled.install (h : Settled sb w g o (ip ::ₘ B) s) (hnone : (s.ftable f).type = .none)
    (href : x.ref = 1) (htype : x.type = .inode ∨ x.type = .device) (hip : x.ip = ip)
    (hdir : g → x.writable = true → (s.dinode (s.itable ip).inum).type ≠ T_DIR) :
    Settled sb w g o B { s with ftable := update s.ftable f x } := by
  refine h.setFile (fun e => ?_) (fun h0 => ?_) fun hg _ _ hwr => ?_
  · rw [fileRef_none hnone, Multiset.count_cons]
    unfold fileRef
    by_cases he : e = ip
    · rw [if_pos he, if_pos ⟨by omega, htype, hip.trans he.symm⟩]
      omega
    · rw [if_neg he, if_neg fun hc => he (hc.2.2.symm.trans hip)]
      omega
  · rw [href] at h0
    cases h0
  · rw [hip]
    exact hdir hg hwr

theorem openFile_ends {fd : Fin NOFILE} (h : Settled sb w g 1 (ip ::ₘ B) s)
    (hv : w → (s.itable ip).valid = true) (href : (s.ftable f).ref = 1)
    (hnone : (s.ftable f).type = .none)
    (hdir : g → omode ≠ O_RDONLY → (s.dinode (s.itable ip).inum).type ≠ T_DIR) :
    Ends (openFile f fd ip omode s) (fun _ t => Settled sb w g 0 B t) (Fine w g) := by
  have hpos := h.pos (Multiset.mem_cons_self ip B)
  unfold openFile
  rw [inode_bind, file_bind,
    bind_of_ok (rfl : setFile f _ s = .ok () _)]
  apply Ends.bind (Settled.openTrunc (h.install hnone (by exact href) ?_ rfl ?_) hpos hv)
  · rintro _ t ⟨ht, hpos'⟩
    apply (ht.unlock hpos').bind
    rintro _ u ⟨hu, -⟩
    exact hu.finish
  · by_cases hdev : (s.itable ip).d.type = T_DEVICE
    · exact Or.inr (if_pos hdev)
    · exact Or.inl (if_neg hdev)
  · intro hg hwr
    apply hdir hg
    -- a file that is only read is not writable
    rintro rfl
    simp [O_RDONLY] at hwr

theorem openBad_ends (h : Settled sb w g 1 (ip ::ₘ B) s) :
    Ends (openBad ip s) (fun _ t => Settled sb w g 0 B t) (Fine w g) :=
  h.unlockputEnd (-1)

theorem Settled.filealloc (h : Settled sb w g o H s) :
    Ends (Fs.filealloc s) (fun r t => Settled sb w g o H t ∧ t.itable = s.itable ∧
      t.dinode = s.dinode ∧ ∀ f, r = some f → (t.ftable f).ref = 1 ∧ (t.ftable f).type = .none)
      (Fine w g) := by
  unfold Fs.filealloc
  rw [bind_of_ok (rfl : freeFile s = .ok _ s)]
  cases hfree : first fun f => decide ((s.ftable f).ref = 0) with
  | none => exact ⟨h, rfl, rfl, fun f hf => by cases hf⟩
  | some f =>
    have href : (s.ftable f).ref = 0 := by simpa using first_some hfree
    have hnone := h.inv.refs.idle f href
    simp only
    rw [file_bind, bind_of_ok (rfl : Fs.setFile f _ s = .ok () _)]
    refine ⟨h.setFile (fun e => ?_) (fun h0 => absurd h0 one_ne_zero) fun _ _ htype => ?_, rfl, rfl,
      ?_⟩
    · rw [fileRef_none hnone, fileRef_none (by exact hnone)]
    · simp only [hnone] at htype
      cases htype
    · rintro _ ⟨⟩
      simp [hnone]

theorem Settled.fdalloc (h : Settled sb w g o H s) :
    Ends (Fs.fdalloc p f s) (fun _ t => Settled sb w g o H t ∧ t.itable = s.itable ∧
      t.dinode = s.dinode ∧ t.ftable = s.ftable) (Fine w g) := by
  unfold Fs.fdalloc
  rw [myproc_bind]
  cases first fun fd => ((s.proc p).ofile fd).isNone with
  | none => exact ⟨h, rfl, rfl, rfl⟩
  | some fd => exact ⟨h.setFds, rfl, rfl, rfl⟩

/-- **`sys_open` with the locked inode.** -/
theorem openInode_ends (h : Settled sb w g 1 (ip ::ₘ B) s) (hv : w → (s.itable ip).valid = true)
    (hdir : g → omode ≠ O_RDONLY → (s.dinode (s.itable ip).inum).type ≠ T_DIR) :
    Ends (openInode p ip omode s) (fun _ t => Settled sb w g 0 B t) (Fine w g) := by
  unfold openInode
  rw [inode_bind]
  by_cases hdev : (s.itable ip).d.type = T_DEVICE ∧
      ((s.itable ip).d.major.toInt < 0 ∨ NDEV ≤ (s.itable ip).d.major.toInt)
  · rw [if_pos hdev]
    exact openBad_ends h
  rw [if_neg hdev]
  apply h.filealloc.bind
  rintro (_ | f) t ⟨ht, hit, hd, hnew⟩
  · exact openBad_ends ht
  apply (ht.fdalloc (p := p) (f := f)).bind
  rintro (_ | fd) u ⟨hu, hit', hd', hft⟩
  · apply hu.fileclose.bind
    rintro _ x hx
    exact openBad_ends hx
  · obtain ⟨href, hnone⟩ := hnew f rfl
    refine openFile_ends hu ?_ (by rw [hft]; exact href) (by rw [hft]; exact hnone) ?_
    · rw [hit', hit]
      exact hv
    · rw [hit', hit, hd', hd]
      exact hdir

/-- **`sys_open`.** -/
theorem sysOpen_ends (h : Settled sb w g 0 B s)
    (hstart : ∀ path', argstr path = some path' → Starts g p path' s) :
    Ends (sysOpen sb p path omode s) (fun _ t => Settled sb w g 0 B t) (Fine w g) := by
  unfold sysOpen
  cases hpath : argstr path with
  | none => exact h
  | some path' =>
    simp only
    rw [beginOp_bind]
    by_cases hcreate : omode &&& O_CREATE ≠ 0
    · rw [if_pos hcreate]
      apply (create_ends h.begin (by decide) (hstart path' hpath) fun _ hdir => by
        exact absurd hdir (by decide)).bind
      rintro (_ | ip) t ht
      · exact Settled.finish ht
      · exact openInode_ends ht.1 ht.2.1 fun hg _ => ht.2.2 hg rfl
    · rw [if_neg hcreate]
      apply (namei_ends h.begin.inv (fun _ => le_rfl) p path' (hstart path' hpath)).bind
      rintro _ t ⟨(_ | ⟨ip, nm⟩), rfl, hwalk⟩
      · exact (h.begin.walk hwalk).finish
      have ht : Settled sb w g 1 (ip ::ₘ B) t := h.begin.walk hwalk
      have hip := Multiset.mem_cons_self ip B
      simp only [Option.map_some]
      apply (ht.lock (ht.pos hip)).bind
      rintro _ u ⟨hu, hload⟩
      rw [inode_bind]
      by_cases hbad : (u.itable ip).d.type = T_DIR ∧ omode ≠ O_RDONLY
      · rw [if_pos hbad]
        exact openBad_ends hu
      · rw [if_neg hbad]
        refine openInode_ends hu (fun _ => hload.valid) fun hg hmode hdir => hbad ⟨?_, hmode⟩
        rw [← (hu.inv.good (h.inv.gw hg)).clean ip (hu.pos hip) hload.valid]
        exact hdir

/-- **`sys_mkdir` and `sys_mknod`.** -/
theorem sysMake_ends {type major minor : Itable.CShort} (h : Settled sb w g 0 B s)
    (htype : type ≠ 0) (hstart : ∀ path', argstr path = some path' → Starts g p path' s)
    (hroom : g → type = T_DIR → Roomy s.dinode) :
    Ends (sysMake sb p path type major minor s) (fun _ t => Settled sb w g 0 B t) (Fine w g) := by
  unfold sysMake
  rw [beginOp_bind]
  cases hpath : argstr path with
  | none => exact h.begin.finish
  | some path' =>
    simp only
    apply (create_ends h.begin htype (hstart path' hpath) hroom).bind
    rintro (_ | ip) t ht
    · exact Settled.finish ht
    · exact ht.1.unlockputEnd 0

/-! ## Reading and writing -/

/-- **`filestat`.** -/
theorem filestat_ends {copied : Bool} (h : Settled sb w g o H s) :
    Ends (filestat f copied s) (fun _ t => Settled sb w g o H t) (Fine w g) := by
  unfold filestat
  rw [file_bind]
  by_cases htype : (s.ftable f).type = .inode ∨ (s.ftable f).type = .device
  · rw [if_pos htype]
    have hpos := h.inv.refs.pos_of_open htype
    apply (h.lock hpos).bind
    rintro _ t ⟨ht, hload⟩
    apply (ht.unlock (by rw [hload.ref]; exact hpos)).bind
    rintro _ u ⟨hu, -⟩
    exact hu
  · rw [if_neg htype]
    exact h

/-- **`fileread`**, outside of a transaction. -/
theorem fileread_ends {ok : ℕ → Bool} {n : ℤ} (h : Settled sb w g o H s) :
    Ends (fileread sb f ok n s) (fun _ t => Settled sb w g o H t) (Fine w g) := by
  unfold fileread
  rw [file_bind]
  by_cases hread : (s.ftable f).readable = false
  · rw [if_pos hread]
    exact h
  rw [if_neg hread]
  cases htype : (s.ftable f).type with
  | none => exact h.inv.fine (by decide)
  | pipe => exact h
  | device => exact h
  | inode =>
    have hpos := h.inv.refs.pos_of_open (f := f) (Or.inl htype)
    simp only
    apply (h.lock hpos).bind
    rintro _ t ⟨ht, hload⟩
    have hpos' : 0 < (t.itable (s.ftable f).ip).ref := by
      rw [hload.ref]
      exact hpos
    apply (readi_ends ht.inv hpos' (fun _ => hload.valid) ok _ _).bind
    rintro ⟨r, bs⟩ u ⟨hu, hbody, hsame⟩
    have hus := ht.same hu (hbody.keeps H) le_rfl fun hg => by
      rw [hsame (h.inv.gw hg)]
      exact SameDisk.refl t
    have hpos'' : 0 < (u.itable (s.ftable f).ip).ref := by
      rw [hbody.ref]
      exact hpos'
    have hft : u.ftable f = s.ftable f := by rw [hbody.ftable, hload.ftable]
    by_cases hr : 0 < r
    · -- the offset moves on
      rw [if_pos hr, bind_of_ok (rfl : setFile f _ u = .ok () _)]
      refine Ends.bind (Settled.unlock (hus.setOff (by rw [hft, ← htype])) (by exact hpos'')) ?_
      rintro _ x ⟨hx, -⟩
      exact hx
    · rw [if_neg hr]
      apply (hus.unlock hpos'').bind
      rintro _ x ⟨hx, -⟩
      exact hx

/-- A write to a file changes no node of the tree. -/
theorem WriteDone.sameAt {off : ℕ} {r : ℤ} (hgood : Consistent sb s)
    (h : WriteDone sb ip src off n s r t) (hfile : (s.dinode (s.itable ip).inum).type ≠ T_DIR)
    (i : ℕ) : SameAt s.dinode s.block t.dinode t.block i := by
  rcases h with ⟨-, rfl, -⟩ | ⟨m, -, hsaved⟩
  · exact SameAt.refl _ _ i
  · apply hsaved.sameAt hgood
    by_cases hi : i = (s.itable ip).inum
    · rw [hi]
      exact Or.inr hfile
    · exact Or.inl hi

/-- The pieces of a write, each in its own transaction. -/
theorem writePieces_ends (fuel : ℕ) : ∀ i s,
    Settled sb w g 0 H s → (s.ftable f).type = .inode → (s.ftable f).writable = true →
    Ends (writePieces sb f src n fuel i s) (fun _ t => Settled sb w g 0 H t) (Fine w g) := by
  induction fuel with
  | zero =>
    intro i s h _ _
    exact h
  | succ fuel ih =>
    intro i s h htype hwr
    unfold writePieces
    by_cases hi : i < n
    swap
    · rw [if_neg hi]
      exact h
    rw [if_pos hi, beginOp_bind,
      file_bind]
    have h1 := h.begin
    have hpos : 0 < (s.begun.itable (s.ftable f).ip).ref :=
      h1.inv.refs.pos_of_open (f := f) (Or.inl htype)
    apply (h1.lock hpos).bind
    rintro _ t ⟨ht, hload⟩
    have hpos' : 0 < (t.itable (s.ftable f).ip).ref := by
      rw [hload.ref]
      exact hpos
    apply (writei_ends ht.inv (fun _ => le_rfl) hpos' (fun _ => hload.valid) _ _ _).bind
    rintro r u ⟨hu, hbody, hdone⟩
    -- a directory is never open for writing
    have hfile : g → (t.dinode (t.itable (s.ftable f).ip).inum).type ≠ T_DIR := by
      intro hg
      have hlive := (h.inv.live hg).files f (h.inv.refs.ref_pos (by rw [htype]; decide)) htype hwr
      rw [hload.inum, hload.disk.dinode]
      exact hlive
    have hus : Settled sb w g 1 H u := ht.alike hu (hbody.keeps H) le_rfl fun hg =>
      (hdone (h.inv.gw hg)).sameAt (ht.inv.good (h.inv.gw hg)) (hfile hg)
    have hft : u.ftable f = s.ftable f := by
      rw [hbody.ftable, hload.ftable, State.begun_ftable]
    rw [bind_of_ok (rfl : setFile f _ u = .ok () _)]
    have hset := hus.setOff (f := f) (n := if 0 < r then (s.ftable f).off + r.toNat
      else (s.ftable f).off) (by rw [hft])
    apply (hset.unlock (by rw [← hbody.ref] at hpos'; exact hpos')).bind
    rintro _ _ ⟨hx, rfl⟩
    rw [endOp_bind]
    have hend := hx.finish
    by_cases hr : r ≠ ((min (n - i) maxWrite : ℕ) : ℤ)
    · rw [if_pos hr]
      exact hend
    · rw [if_neg hr]
      exact ih _ _ hend (by simp [htype]) (by simp [hwr])

/-- **`filewrite`.** -/
theorem filewrite_ends {n : ℤ} (h : Settled sb w g 0 H s) :
    Ends (filewrite sb f src n s) (fun _ t => Settled sb w g 0 H t) (Fine w g) := by
  unfold filewrite
  rw [file_bind]
  by_cases hwr : (s.ftable f).writable = false
  · rw [if_pos hwr]
    exact h
  rw [if_neg hwr]
  cases htype : (s.ftable f).type with
  | none => exact h.inv.fine (by decide)
  | pipe => exact h
  | device => exact h
  | inode =>
    apply (writePieces_ends _ _ s h htype (by simpa using hwr)).bind
    rintro _ t ht
    exact ht

end Fs
