/-
# Every call gives back its locks

The programs of the file system as far as the inode locks go.  Reading, writing and looking
up leave the locks alone; `ilock` takes one and `iunlock` gives one back.  A system call that
returns has given back every lock that it has taken, whatever the state it was called in
and whatever it returns (`syscall_neutral`), so no inode is locked between calls.
-/
import Xv6.FsRun

namespace Fs

open Function Hoare
open Calls (NFILE NOFILE)
open Itable (CShort)
open Proc (NPROC)
open Transition

variable {α β : Type} {sb : Superblock} {dp ip : Ip} {p : Fin NPROC} {f : Fin NFILE}
variable {type major minor : CShort}

/-! ## Programs and locks -/

/-- If the program returns, its result and the locks before and after are related by `E`. -/
def Locks (E : α → (Ip → Bool) → (Ip → Bool) → Prop) (c : FsM α) : Prop :=
  ∀ s, Ends (c s) (fun a t => E a s.locked t.locked) fun _ _ => True

/-- The locks are as before. -/
abbrev Neutral (c : FsM α) : Prop := Locks (fun _ l l' => l' = l) c

/-- One lock has been given back. -/
abbrev Unlocks (ip : Ip) (c : FsM α) : Prop :=
  Locks (fun _ l l' => l' = update l ip false) c

variable {E : α → (Ip → Bool) → (Ip → Bool) → Prop} {c : FsM α}
    {G : β → (Ip → Bool) → (Ip → Bool) → Prop}

theorem Locks.panic (e : String) : Locks E (throw e : FsM α) := fun _ => trivial

theorem Locks.bind {f : α → FsM β} {F : α → β → (Ip → Bool) → (Ip → Bool) → Prop} (hc : Locks E c)
    (hf : ∀ a, Locks (F a) (f a))
    (h : ∀ a b l l' l'', E a l l' → F a b l' l'' → G b l l'') : Locks G (c >>= f) := by
  intro s
  apply Ends.bind (hc s)
  intro a t hst
  exact (hf a t).post fun b u htu => h a b _ _ _ hst htu

theorem Locks.ite {φ : Prop} [Decidable φ] {d : FsM α} (hc : Locks E c)
    (hd : Locks E d) : Locks E (if φ then c else d) := by
  split
  · exact hc
  · exact hd

theorem Locks.imp {F : α → (Ip → Bool) → (Ip → Bool) → Prop} (hc : Locks E c)
    (h : ∀ a l l', E a l l' → F a l l') : Locks F c := fun s =>
  (hc s).post fun a t => h a s.locked t.locked

theorem Neutral.ret (a : α) : Neutral (pure a : FsM α) := fun _ => rfl

theorem Locks.of_ret (a : α) : Locks (fun b l l' => b = a ∧ l' = l) (pure a : FsM α) :=
  fun _ => ⟨rfl, rfl⟩

theorem OnBody.neutral (h : OnBody ip c) : Neutral c := fun s =>
  (h s).post fun _ _ hb => hb.locked

theorem Neutral.bind {f : α → FsM β} (hc : Neutral c)
    (hf : ∀ a, Locks G (f a)) : Locks G (c >>= f) :=
  Locks.bind hc hf fun _ _ _ _ _ hl hG => hl ▸ hG

/-- A program that reads the state runs first. -/
theorem Neutral.look {g : State → α} {f : α → FsM β} (hf : ∀ a, Locks G (f a)) :
    Locks G ((fun s => .ok (g s) s : FsM α) >>= f) :=
  Neutral.bind (fun _ => rfl) hf

theorem Neutral.map {g : α → β} (h : Neutral c) : Neutral (g <$> c) := fun s =>
  Ends.map (h s)

/-- One lock is given back, and then nothing. -/
theorem Unlocks.bind {f : α → FsM β} (hc : Unlocks ip c) (hf : ∀ a, Neutral (f a)) :
    Unlocks ip (c >>= f) :=
  Locks.bind hc hf fun _ _ _ _ _ hl hl' => hl'.trans hl

theorem Unlocks.ret (hc : Unlocks ip c) (b : β) :
    Locks (fun b' l l' => b' = b ∧ l' = update l ip false) (c >>= fun _ => pure b) :=
  Locks.bind hc (fun _ => Locks.of_ret b) fun _ _ _ _ _ hl hb => ⟨hb.1, hb.2.trans hl⟩

/-! ## Inodes -/

theorem ilock_locks : Locks (fun _ l l' => l ip = false ∧ l' = update l ip true) (ilock ip) := by
  intro s
  unfold ilock acquiresleep
  rw [inode_bind]
  by_cases href : (s.itable ip).ref < 1
  · rw [if_pos href]
    exact trivial
  rw [if_neg href]
  apply Ends.bind (Q := fun _ t => s.locked ip = false ∧
    t.locked = update s.locked ip true)
  · by_cases hl : s.locked ip = true
    · simp only [hl, if_true]
      exact trivial
    · rw [Bool.not_eq_true] at hl
      simp only [hl, Bool.false_eq_true, if_false]
      exact ⟨trivial, rfl⟩
  · intro _ t ht
    split
    · exact ht
    · rw [bind_of_ok (rfl : dinode _ _ = .ok _ _), bind_of_ok (rfl : setInode ip _ _ = .ok () _)]
      split
      · exact trivial
      · exact ht

/-- A lock is taken and given back. -/
theorem ilock_bind (hc : Unlocks ip c) : Neutral (ilock ip >>= fun _ => c) := by
  refine Locks.bind ilock_locks (fun _ => hc) ?_
  rintro _ _ l _ _ ⟨hfree, rfl⟩ rfl
  rw [update_idem, ← hfree, update_eq_self]

theorem iunlock_unlocks : Unlocks ip (iunlock ip) := by
  intro s
  unfold iunlock
  rw [inode_bind, bind_of_ok (rfl : holdingsleep ip s = .ok _ s)]
  split
  · exact trivial
  · exact rfl

theorem iget_neutral (inum : ℕ) : Neutral (iget inum) := fun s =>
  (iget_got inum s).imp (fun ip t hgot => by
    obtain ⟨x, rfl, -⟩ := hgot.state
    rfl) fun _ _ _ => trivial

theorem iupdate_neutral : Neutral (iupdate ip) := OnBody.neutral (@iupdate_onBody ip)

theorem setNlink_neutral (g : CShort → CShort) : Neutral (setNlink ip g) :=
  (edit_onBody _).neutral.bind fun _ => iupdate_neutral

theorem logWrite_neutral (x : Target) : Neutral (logWrite x) := by
  intro s
  unfold logWrite
  split
  · exact trivial
  · exact rfl

theorem iput_neutral : Neutral (iput ip) := by
  intro s
  unfold iput
  rw [inode_bind]
  split
  · have hacquire : Ends (acquiresleep ip s) (fun _ t => s.locked ip = false ∧
        t.locked = update s.locked ip true) fun _ _ => True := by
      unfold acquiresleep
      by_cases hl : s.locked ip = true
      · rw [if_pos hl]
        exact trivial
      · rw [if_neg hl]
        exact ⟨by simpa using hl, rfl⟩
    apply hacquire.bind
    rintro _ t ⟨hfree, ht⟩
    apply Ends.bind (@ifree_onBody ip t)
    intro _ u hbody
    have hlocked : update u.locked ip false = s.locked := by
      rw [hbody.locked, ht, update_idem, ← hfree, update_eq_self]
    rw [bind_of_ok (rfl : releasesleep ip u = .ok () _), inode_bind]
    exact hlocked
  · exact rfl

theorem iunlockput_unlocks : Unlocks ip (iunlockput ip) :=
  iunlock_unlocks.bind fun _ => iput_neutral

theorem ialloc_neutral : Neutral (ialloc sb type) := by
  refine Neutral.look fun r => ?_
  cases r with
  | none => exact Neutral.ret none
  | some inum =>
    exact Neutral.bind (fun _ => rfl) fun _ => (logWrite_neutral _).bind fun _ =>
      Neutral.map (iget_neutral inum)

theorem readi_neutral (ok : ℕ → Bool) (off n : ℕ) : Neutral (readi sb ip ok off n) :=
  (readi_onBody sb ok off n).neutral

theorem writei_neutral (src : ℕ → Option UInt8) (off n : ℕ) : Neutral (writei sb ip src off n) :=
  (writei_onBody sb src off n).neutral

/-! ## Directories and paths -/

theorem dirlookupLoop_neutral (name : List UInt8) (n : ℕ) :
    ∀ off, Neutral (dirlookupLoop sb dp name n off) := by
  induction n with
  | zero => exact fun _ => Neutral.ret none
  | succ n ih =>
    intro off
    refine (readi_neutral _ _ _).bind fun r => ?_
    refine Locks.ite (Locks.panic _) (Locks.ite (ih _) (Locks.ite ?_ (ih _)))
    exact Neutral.bind (fun _ => rfl) fun _ => (iget_neutral _).bind fun _ => Neutral.ret _

theorem dirlookup_neutral (name : List UInt8) : Neutral (dirlookup sb dp name) :=
  Neutral.look fun _ =>
    Locks.ite (Locks.panic _) (dirlookupLoop_neutral name _ 0)

theorem emptyEntry_neutral (n : ℕ) : ∀ off, Neutral (emptyEntry sb dp n off) := by
  induction n with
  | zero => exact fun off => Neutral.ret off
  | succ n ih =>
    intro off
    refine (readi_neutral _ _ _).bind fun r => ?_
    exact Locks.ite (Locks.panic _) (Locks.ite (Neutral.ret off) (ih _))

theorem dirlink_neutral (name : List UInt8) (inum : ℕ) : Neutral (dirlink sb dp name inum) := by
  refine (dirlookup_neutral name).bind fun r => ?_
  cases r with
  | none =>
    refine Neutral.look fun _ => (emptyEntry_neutral _ _).bind fun _ =>
      (writei_neutral _ _ _).bind fun _ => Locks.ite (Neutral.ret _) (Neutral.ret _)
  | some x => exact iput_neutral.bind fun _ => Neutral.ret _

theorem isdiremptyLoop_neutral (n : ℕ) : ∀ off, Neutral (isdiremptyLoop sb dp n off) := by
  induction n with
  | zero => exact fun off => Neutral.ret true
  | succ n ih =>
    intro off
    refine (readi_neutral _ _ _).bind fun r => ?_
    exact Locks.ite (Locks.panic _) (Locks.ite (Neutral.ret false) (ih _))

theorem nonempty_neutral : Neutral (nonempty sb ip) :=
  Neutral.look fun _ => Locks.ite (Neutral.map (Neutral.look
    fun _ => isdiremptyLoop_neutral _ _)) (Neutral.ret _)

theorem namexLoop_neutral (parent : Bool) (fuel : ℕ) :
    ∀ ip path last, Neutral (namexLoop sb parent fuel ip path last) := by
  induction fuel with
  | zero => exact fun ip path last => Neutral.ret _
  | succ fuel ih =>
    intro ip path last
    unfold namexLoop
    cases skipelem path with
    | none => exact Locks.ite (iput_neutral.bind fun _ => Neutral.ret _) (Neutral.ret _)
    | some elem =>
      obtain ⟨name, rest⟩ := elem
      apply ilock_bind
      refine Neutral.look fun x => ?_
      refine Locks.ite (iunlockput_unlocks.bind fun _ => Neutral.ret _) (Locks.ite
        (iunlock_unlocks.bind fun _ => Neutral.ret _) ((dirlookup_neutral name).bind fun r => ?_))
      cases r with
      | none => exact iunlockput_unlocks.bind fun _ => Neutral.ret _
      | some x => exact iunlockput_unlocks.bind fun _ => ih _ _ _

theorem namex_neutral (path : List UInt8) (parent : Bool) : Neutral (namex sb p path parent) := by
  refine Neutral.bind (Locks.ite (Neutral.map (iget_neutral _)) ?_) fun r => ?_
  · refine Neutral.look fun r => ?_
    cases r with
    | none => exact Neutral.ret _
    | some ip => exact Neutral.bind (fun _ => rfl) fun _ => Neutral.ret _
  · cases r with
    | none => exact Locks.panic _
    | some ip => exact namexLoop_neutral parent _ _ _ _

theorem namei_neutral (path : List UInt8) : Neutral (namei sb p path) :=
  Neutral.map (namex_neutral path false)

/-! ## Links -/

theorem endOp_neutral (r : α) : Neutral (endOp >>= fun _ => pure r) := fun _ => rfl

theorem linkBad_neutral : Neutral (linkBad ip) :=
  ilock_bind ((setNlink_neutral _).bind fun _ => iunlockput_unlocks.bind fun _ => endOp_neutral _)

theorem sysLink_neutral (old new : Option (List UInt8)) : Neutral (sysLink sb p old new) := by
  unfold sysLink
  split
  swap
  · exact Neutral.ret _
  refine Neutral.bind (fun _ => rfl) fun _ => (namei_neutral _).bind fun r => ?_
  cases r with
  | none => exact endOp_neutral _
  | some ip =>
    apply ilock_bind
    refine Neutral.look fun x => ?_
    refine Locks.ite (iunlockput_unlocks.bind fun _ => endOp_neutral _) ?_
    refine (setNlink_neutral _).bind fun _ => iunlock_unlocks.bind fun _ => ?_
    refine (namex_neutral _ true).bind fun r => ?_
    cases r with
    | none => exact linkBad_neutral
    | some x =>
      apply ilock_bind
      refine (dirlink_neutral _ _).bind fun r => ?_
      refine Locks.ite (iunlockput_unlocks.bind fun _ => linkBad_neutral) ?_
      exact iunlockput_unlocks.bind fun _ => iput_neutral.bind fun _ => endOp_neutral _

theorem unlinkBad_unlocks : Unlocks dp (unlinkBad dp) :=
  iunlockput_unlocks.bind fun _ => endOp_neutral _

theorem update_false_comm (l : Ip → Bool) : update (update l dp false) ip false =
      update (update l ip false) dp false := by
  by_cases h : dp = ip
  · rw [h]
  · exact update_comm h _ _ _

/-- Two locks are given back. -/
theorem Unlocks.both {d : FsM β} (hc : Unlocks ip c) (hd : Unlocks dp d) :
    Locks (fun _ l l' => l' = update (update l ip false) dp false) (c >>= fun _ => d) :=
  Locks.bind hc (fun _ => hd) fun _ _ _ _ _ hl hl' => hl ▸ hl'

theorem unlinkEntry_locks (off : ℕ) : Locks (fun _ l l' => l' = update (update l dp false) ip false)
      (unlinkEntry sb dp ip off) := by
  refine (writei_neutral _ _ _).bind fun _ => Locks.ite (Locks.panic _) ?_
  refine Neutral.bind (Neutral.look fun _ =>
    Locks.ite (setNlink_neutral _) (Neutral.ret _)) fun _ => ?_
  refine iunlockput_unlocks.both ((setNlink_neutral _).bind fun _ => ?_)
  exact iunlockput_unlocks.bind fun _ => endOp_neutral _

/-- The end of `sys_unlink`, with the lock of the directory. -/
theorem unlinkFound_unlocks (off : ℕ) : Unlocks dp (ilock ip >>= fun _ => inode ip >>= fun x =>
      if x.d.nlink.toInt < 1 then throw "unlink: nlink < 1"
      else nonempty sb ip >>= fun b => if b then iunlockput ip >>= fun _ => unlinkBad dp
        else unlinkEntry sb dp ip off) := by
  refine Locks.bind (F := fun _ _ l l' => l' = update (update l ip false) dp false)
    ilock_locks (fun _ => ?_) ?_
  · refine Neutral.look fun x => Locks.ite (Locks.panic _) ?_
    refine nonempty_neutral.bind fun b => Locks.ite (iunlockput_unlocks.both unlinkBad_unlocks) ?_
    exact (unlinkEntry_locks off).imp fun _ l _ hl => hl.trans (update_false_comm l)
  · rintro _ _ l _ _ ⟨hfree, rfl⟩ rfl
    rw [update_idem, ← hfree, update_eq_self]

theorem sysUnlink_neutral (path : Option (List UInt8)) : Neutral (sysUnlink sb p path) := by
  unfold sysUnlink
  split
  · exact Neutral.ret _
  refine Neutral.bind (fun _ => rfl) fun _ => (namex_neutral _ true).bind fun r => ?_
  cases r with
  | none => exact endOp_neutral _
  | some x =>
    apply ilock_bind
    refine Locks.ite unlinkBad_unlocks ((dirlookup_neutral _).bind fun r => ?_)
    cases r with
    | none => exact unlinkBad_unlocks
    | some y => exact unlinkFound_unlocks _

/-! ## Creating and opening -/

theorem createFail_locks : Locks (fun r l l' => r = none ∧ l' = update (update l ip false) dp false)
      (createFail dp ip) := by
  refine (setNlink_neutral _).bind fun _ =>
    Locks.bind iunlockput_unlocks (fun _ => iunlockput_unlocks.ret (none : Option Ip)) ?_
  rintro _ _ l _ _ rfl ⟨rfl, rfl⟩
  exact ⟨rfl, rfl⟩

theorem createDots_neutral : Neutral (createDots sb dp ip type) := by
  refine Locks.ite (Neutral.look fun _ => (dirlink_neutral _ _).bind fun _ =>
    Locks.ite (Neutral.ret false) ?_) (Neutral.ret true)
  exact Neutral.look fun _ => (dirlink_neutral _ _).bind fun _ => Neutral.ret _

/-- What `create` leaves locked: the inode that it returns. -/
def Leaves (r : Option Ip) (l l' : Ip → Bool) : Prop :=
  match r with
  | none => l' = l
  | some ip => l ip = false ∧ l' = update l ip true

theorem createNew_locks (name : List UInt8) :
    Locks (fun r l l' => l dp = true → Leaves r (update l dp false) l')
      (createNew sb dp ip name type major minor) := by
  refine Locks.bind (F := fun _ r l l' =>
    (r = none ∧ l' = update (update l ip false) dp false) ∨
      (r = some ip ∧ l' = update l dp false)) ilock_locks (fun _ => ?_) ?_
  · have hfail : Locks (fun r l l' =>
        (r = none ∧ l' = update (update l ip false) dp false) ∨
          (r = some ip ∧ l' = update l dp false)) (createFail dp ip) :=
      createFail_locks.imp fun _ _ _ => Or.inl
    refine Neutral.bind ((edit_onBody _).neutral.bind fun _ => iupdate_neutral) fun _ => ?_
    refine createDots_neutral.bind fun _ => Locks.ite hfail ?_
    refine Neutral.look fun _ => (dirlink_neutral _ _).bind fun _ =>
      Locks.ite hfail ?_
    refine Neutral.bind (Locks.ite (setNlink_neutral _) (Neutral.ret _)) fun _ => ?_
    exact (iunlockput_unlocks.ret (some ip)).imp fun _ _ _ => Or.inr
  · rintro _ r l _ _ ⟨hfree, rfl⟩ (⟨rfl, rfl⟩ | ⟨rfl, rfl⟩) hdp
    · unfold Leaves
      rw [update_idem, ← hfree, update_eq_self]
    · -- the new inode is not the directory
      have hne : ip ≠ dp := by
        rintro rfl
        rw [hfree] at hdp
        cases hdp
      exact ⟨by rw [update_of_ne hne, hfree], update_comm hne _ _ _⟩

/-- **`create`** locks the inode that it returns. -/
theorem create_locks (path : List UInt8) : Locks Leaves (create sb p path type major minor) := by
  refine (namex_neutral _ true).bind fun r => ?_
  cases r with
  | none => exact (Locks.of_ret none).imp fun _ _ _ hr => by rw [hr.1]; exact hr.2
  | some x =>
    obtain ⟨dp, name⟩ := x
    refine Locks.bind (F := fun _ r l l' => l dp = true → Leaves r (update l dp false) l')
      ilock_locks (fun _ => (dirlookup_neutral name).bind fun r => ?_) ?_
    · cases r with
      | none =>
        refine ialloc_neutral.bind fun r => ?_
        cases r with
        | none =>
          exact (iunlockput_unlocks.ret none).imp fun _ _ _ hr _ => by rw [hr.1]; exact hr.2
        | some ip => exact createNew_locks name
      | some y =>
        refine Locks.bind iunlockput_unlocks (F := fun _ r l l' => Leaves r l l') (fun _ => ?_) ?_
        · refine Locks.bind ilock_locks (F := fun _ r l l' => (r = none ∧
            l' = update l y.1 false) ∨ (r = some y.1 ∧ l' = l)) (fun _ => ?_) ?_
          · refine Neutral.look fun x => Locks.ite ?_ ?_
            · exact (Locks.of_ret (some y.1)).imp fun _ _ _ => Or.inr
            · exact (iunlockput_unlocks.ret none).imp fun _ _ _ => Or.inl
          · rintro _ r l _ _ ⟨hfree, rfl⟩ (⟨rfl, rfl⟩ | ⟨rfl, rfl⟩)
            · unfold Leaves
              rw [update_idem, ← hfree, update_eq_self]
            · exact ⟨hfree, rfl⟩
        · rintro _ r l _ l' rfl hl _
          exact hl
    · rintro _ r l _ l' ⟨hfree, rfl⟩ hl
      have := hl (update_self _ _ _)
      rwa [update_idem, ← hfree, update_eq_self] at this

theorem openBad_unlocks : Unlocks ip (openBad ip) :=
  iunlockput_unlocks.bind fun _ => endOp_neutral _

theorem fileclose_neutral : Neutral (fileclose f) := by
  refine Neutral.look fun x => Locks.ite (Locks.panic _) (Locks.ite (fun _ => rfl) ?_)
  refine Neutral.bind (fun _ => rfl) fun _ => Locks.ite ?_ (Neutral.ret _)
  exact Neutral.bind (fun _ => rfl) fun _ => iput_neutral.bind fun _ => fun _ => rfl

theorem fdalloc_neutral : Neutral (fdalloc p f) := by
  refine Neutral.look fun x => ?_
  split
  · exact Neutral.ret none
  · exact Neutral.bind (fun _ => rfl) fun _ => Neutral.ret _

theorem filealloc_neutral : Neutral filealloc := by
  refine Neutral.look fun r => ?_
  cases r with
  | none => exact Neutral.ret none
  | some f => exact Neutral.bind (fun _ => rfl) fun _ => Neutral.bind (fun _ => rfl) fun _ =>
      Neutral.ret _

theorem openInode_unlocks (omode : ℕ) : Unlocks ip (openInode p ip omode) := by
  refine Neutral.look fun x => Locks.ite openBad_unlocks
    (filealloc_neutral.bind fun r => ?_)
  cases r with
  | none => exact openBad_unlocks
  | some f =>
    refine fdalloc_neutral.bind fun r => ?_
    cases r with
    | none => exact fileclose_neutral.bind fun _ => openBad_unlocks
    | some fd =>
      refine Neutral.look fun _ => Neutral.look fun _ =>
        Neutral.bind (fun _ => rfl) fun _ => Neutral.bind ?_ fun _ => ?_
      · exact Neutral.look fun _ =>
          Locks.ite (OnBody.neutral (@itrunc_onBody ip)) (Neutral.ret _)
      · exact iunlock_unlocks.bind fun _ => endOp_neutral _

/-- A program that unlocks the inode which `create` has returned. -/
theorem create_bind {path : List UInt8} {d : Ip → FsM α} (hc : Neutral c)
    (hd : ∀ ip, Unlocks ip (d ip)) :
    Neutral (create sb p path type major minor >>= fun r => match r with
      | none => c
      | some ip => d ip) := by
  refine Locks.bind (create_locks path) (F := fun r _ l l' => match r with
    | none => l' = l
    | some ip => l' = update l ip false) (fun r => ?_) ?_
  · cases r with
    | none => exact hc
    | some ip => exact hd ip
  · rintro (_ | ip) _ l l' l'' hl hl'
    · exact hl'.trans hl
    · obtain ⟨hfree, rfl⟩ := hl
      rw [hl', update_idem, ← hfree, update_eq_self]

theorem sysOpen_neutral (path : Option (List UInt8)) (omode : ℕ) :
    Neutral (sysOpen sb p path omode) := by
  unfold sysOpen
  split
  · exact Neutral.ret _
  refine Neutral.bind (fun _ => rfl) fun _ => Locks.ite
    (create_bind (endOp_neutral _) fun ip => openInode_unlocks omode) ?_
  refine (namei_neutral _).bind fun r => ?_
  cases r with
  | none => exact endOp_neutral _
  | some ip => exact ilock_bind (Neutral.look fun x =>
      Locks.ite openBad_unlocks (openInode_unlocks omode))

theorem sysMake_neutral (path : Option (List UInt8)) :
    Neutral (sysMake sb p path type major minor) := by
  refine Neutral.bind (fun _ => rfl) fun _ => ?_
  split
  · exact endOp_neutral _
  · exact create_bind (endOp_neutral _) fun ip => iunlockput_unlocks.bind fun _ => endOp_neutral _

/-! ## Processes and files -/

theorem putCwd_neutral : Neutral (putCwd p) := by
  refine Neutral.look fun r => ?_
  cases r with
  | none => exact Locks.panic _
  | some ip => exact iput_neutral

theorem sysChdir_neutral (path : Option (List UInt8)) : Neutral (sysChdir sb p path) := by
  refine Neutral.bind (fun _ => rfl) fun _ => ?_
  split
  · exact endOp_neutral _
  refine (namei_neutral _).bind fun r => ?_
  cases r with
  | none => exact endOp_neutral _
  | some ip =>
    refine ilock_bind (Neutral.look fun x => Locks.ite
      (iunlockput_unlocks.bind fun _ => endOp_neutral _) (iunlock_unlocks.bind fun _ => ?_))
    exact putCwd_neutral.bind fun _ => fun _ => rfl

theorem readAll_neutral (reads : List (ℕ × ℕ)) : Neutral (readAll sb ip reads) := by
  induction reads with
  | nil => exact Neutral.ret ()
  | cons x reads ih => exact (readi_neutral _ _ _).bind fun _ => ih

theorem sysExec_neutral (path : Option (List UInt8)) (reads : List (ℕ × ℕ)) :
    Neutral (sysExec sb p path reads) := by
  unfold sysExec
  split
  · exact Neutral.ret _
  refine Neutral.bind (fun _ => rfl) fun _ => (namei_neutral _).bind fun r => ?_
  cases r with
  | none => exact endOp_neutral _
  | some ip => exact ilock_bind ((readAll_neutral reads).bind fun _ =>
      iunlockput_unlocks.bind fun _ => endOp_neutral _)

theorem filedup_neutral : Neutral (filedup f) :=
  Neutral.look fun _ => Locks.ite (Locks.panic _) fun _ => rfl

theorem argfd_neutral (fd : ℤ) : Neutral (argfd p fd) := fun s => by
  obtain ⟨r, hr⟩ := argfd_ok p fd s
  rw [hr]
  exact rfl

theorem withFile_neutral (fd : ℤ) {c : Fin NFILE → FsM ℤ} (hc : ∀ f, Neutral (c f)) :
    Neutral (withFile p fd c) := by
  refine (argfd_neutral fd).bind fun r => ?_
  cases r with
  | none => exact Neutral.ret _
  | some x => exact hc x.2

theorem fileread_neutral (ok : ℕ → Bool) (n : ℤ) : Neutral (fileread sb f ok n) := by
  refine Neutral.look fun x => Locks.ite (Neutral.ret _) ?_
  split
  · exact Neutral.ret _
  · exact Neutral.ret _
  · refine ilock_bind ((readi_neutral _ _ _).bind fun r => Locks.ite ?_ ?_)
    · exact Neutral.bind (fun _ => rfl) fun _ => iunlock_unlocks.bind fun _ => Neutral.ret _
    · exact iunlock_unlocks.bind fun _ => Neutral.ret _
  · exact Locks.panic _

theorem writePieces_neutral (src : ℕ → Option UInt8) (n fuel : ℕ) :
    ∀ i, Neutral (writePieces sb f src n fuel i) := by
  induction fuel with
  | zero => exact fun i => Neutral.ret i
  | succ fuel ih =>
    intro i
    refine Locks.ite (Neutral.bind (fun _ => rfl) fun _ => Neutral.look fun x =>
      ilock_bind ((writei_neutral _ _ _).bind fun r => ?_)) (Neutral.ret i)
    refine Neutral.bind (fun _ => rfl) fun _ => iunlock_unlocks.bind fun _ =>
      Neutral.bind (fun _ => rfl) fun _ => Locks.ite (Neutral.ret i) (ih _)

theorem filewrite_neutral (src : ℕ → Option UInt8) (n : ℤ) : Neutral (filewrite sb f src n) := by
  refine Neutral.look fun x => Locks.ite (Neutral.ret _) ?_
  split
  · exact Neutral.ret _
  · exact Neutral.ret _
  · exact (writePieces_neutral _ _ _ _).bind fun _ => Neutral.ret _
  · exact Locks.panic _

theorem filestat_neutral (copied : Bool) : Neutral (filestat f copied) :=
  Neutral.look fun _ => Locks.ite
    (ilock_bind (iunlock_unlocks.bind fun _ => Neutral.ret _)) (Neutral.ret _)

theorem dupFiles_neutral (ofile : Fin NOFILE → Option (Fin NFILE)) (fds : List (Fin NOFILE)) :
    Neutral (dupFiles ofile fds) := by
  induction fds with
  | nil => exact Neutral.ret ()
  | cons fd fds ih =>
    unfold dupFiles
    split
    · exact ih
    · exact filedup_neutral.bind fun _ => ih

theorem fork_neutral (copied : Bool) : Neutral (fork p copied) := by
  refine Neutral.look fun r => ?_
  cases r with
  | none => exact Neutral.ret _
  | some np =>
    refine Locks.ite (Neutral.ret _) (Neutral.look fun x =>
      (dupFiles_neutral _ _).bind fun _ => ?_)
    split
    · exact Locks.panic _
    · exact fun _ => rfl

theorem closeFiles_neutral (fds : List (Fin NOFILE)) : Neutral (closeFiles p fds) := by
  induction fds with
  | nil => exact Neutral.ret ()
  | cons fd fds ih =>
    refine Neutral.look fun x => ?_
    split
    · exact ih
    · exact fileclose_neutral.bind fun _ => Neutral.look fun _ =>
        Neutral.bind (fun _ => rfl) fun _ => ih

theorem exit_neutral : Neutral (exit p) :=
  Locks.ite (Locks.panic _) ((closeFiles_neutral _).bind fun _ => Neutral.bind (fun _ => rfl)
    fun _ => putCwd_neutral.bind fun _ => fun _ => rfl)

theorem sysDup_neutral (fd : ℤ) : Neutral (sysDup p fd) := by
  refine (argfd_neutral fd).bind fun r => ?_
  cases r with
  | none => exact Neutral.ret _
  | some x =>
    refine fdalloc_neutral.bind fun r => ?_
    cases r with
    | none => exact Neutral.ret _
    | some y => exact filedup_neutral.bind fun _ => Neutral.ret _

theorem sysClose_neutral (fd : ℤ) : Neutral (sysClose p fd) := by
  refine (argfd_neutral fd).bind fun r => ?_
  cases r with
  | none => exact Neutral.ret _
  | some x => exact Neutral.look fun _ => Neutral.bind (fun _ => rfl) fun _ =>
      fileclose_neutral.bind fun _ => Neutral.ret _

theorem reap_neutral (q : Fin NPROC) : Neutral (reap q) :=
  Neutral.look fun _ => Locks.ite (fun _ => rfl) (Neutral.ret _)

/-- **A system call gives back its locks.** -/
theorem syscall_neutral (p : Fin NPROC) (call : Call) : Neutral (syscall sb p call) := by
  cases call with
  | «open» path omode => exact sysOpen_neutral path omode
  | close fd => exact sysClose_neutral fd
  | dup fd => exact sysDup_neutral fd
  | read fd n ok => exact withFile_neutral fd fun f => fileread_neutral ok n
  | write fd n src => exact withFile_neutral fd fun f => filewrite_neutral src n
  | fstat fd copied => exact withFile_neutral fd fun f => filestat_neutral copied
  | link old new => exact sysLink_neutral old new
  | unlink path => exact sysUnlink_neutral path
  | mkdir path => exact sysMake_neutral path
  | mknod path major minor => exact sysMake_neutral path
  | chdir path => exact sysChdir_neutral path
  | exec path reads => exact sysExec_neutral path reads
  | fork copied => exact fork_neutral copied
  | exit => exact exit_neutral
  | wait q => exact reap_neutral q

/-- **No inode is locked between calls.** -/
theorem unlocked_between_calls (D : ℕ → Dinode) (bm : ℕ → Bool) (blk : ℕ → ℕ → UInt8)
    (calls : List (Fin NPROC × Call)) :
    Always (step sb) (fun s => ∀ e, s.locked e = false) (boot D bm blk) calls := by
  refine always_of_step (fun s a t hs hstep e => ?_) (fun s hs => hs) calls _ fun _ => rfl
  unfold step at hstep
  split at hstep
  · have hends : Ends (syscall sb a.1 a.2 s) _ _ := syscall_neutral a.1 a.2 s
    cases hcall : syscall sb a.1 a.2 s with
    | ok r u =>
      rw [hcall] at hstep hends
      cases hstep
      exact (congrFun hends e).trans (hs e)
    | error msg u =>
      rw [hcall] at hstep
      cases hstep
  · cases hstep

end Fs
