/-
# What the functions on one inode leave alone

`bmap`, `itrunc`, `readi` and `writei` work on the content of one inode: they change its
copy in the table, its inode on disk, blocks and the free map, and nothing else.  This
holds from every state and needs no assumption about the disk; panics are left aside.
-/
import Xv6.Fs

namespace Fs

open Hoare

variable {α β : Type} {ip : Ip} {s t u : State}

/-- What is the same after a function on the content of `ip`. -/
structure Body (ip : Ip) (s t : State) : Prop where
  others : ∀ e, e ≠ ip → t.itable e = s.itable e
  inum : (t.itable ip).inum = (s.itable ip).inum
  ref : (t.itable ip).ref = (s.itable ip).ref
  valid : (t.itable ip).valid = (s.itable ip).valid
  disk : ∀ i, i ≠ (s.itable ip).inum → t.dinode i = s.dinode i
  locked : t.locked = s.locked
  ftable : t.ftable = s.ftable
  proc : t.proc = s.proc
  outstanding : t.outstanding = s.outstanding
  dangled : t.dangled = s.dangled
  commits : t.commits = s.commits

theorem Body.refl (ip : Ip) (s : State) : Body ip s s := by
  constructor <;> intros <;> rfl

theorem Body.trans (h : Body ip s t) (h' : Body ip t u) : Body ip s u where
  others e he := (h'.others e he).trans (h.others e he)
  inum := h'.inum.trans h.inum
  ref := h'.ref.trans h.ref
  valid := h'.valid.trans h.valid
  disk i hi := (h'.disk i (h.inum ▸ hi)).trans (h.disk i hi)
  locked := h'.locked.trans h.locked
  ftable := h'.ftable.trans h.ftable
  proc := h'.proc.trans h.proc
  outstanding := h'.outstanding.trans h.outstanding
  dangled := h'.dangled.trans h.dangled
  commits := h'.commits.trans h.commits

theorem Body.ref_eq (h : Body ip s t) (e : Ip) : (t.itable e).ref = (s.itable e).ref := by
  by_cases he : e = ip
  · rw [he]
    exact h.ref
  · rw [h.others e he]

theorem Body.inum_eq (h : Body ip s t) (e : Ip) : (t.itable e).inum = (s.itable e).inum := by
  by_cases he : e = ip
  · rw [he]
    exact h.inum
  · rw [h.others e he]

theorem Body.valid_eq (h : Body ip s t) (e : Ip) : (t.itable e).valid = (s.itable e).valid := by
  by_cases he : e = ip
  · rw [he]
    exact h.valid
  · rw [h.others e he]

/-! ## Programs on the content of an inode -/

/-- If the program returns, it has worked on the content of `ip` only. -/
def OnBody (ip : Ip) (c : FsM α) : Prop :=
  ∀ s, Ends (c s) (fun _ t => Body ip s t) fun _ _ => True

theorem OnBody.ret (a : α) : OnBody ip (pure a) := fun s => Body.refl ip s

theorem OnBody.panic (e : String) : OnBody ip (throw e : FsM α) := fun _ => trivial

theorem OnBody.bind {c : FsM α} {f : α → FsM β} (hc : OnBody ip c) (hf : ∀ a, OnBody ip (f a)) :
    OnBody ip (c >>= f) := by
  intro s
  apply Ends.bind (hc s)
  intro a t hst
  exact (hf a t).post fun _ _ htu => hst.trans htu

theorem OnBody.ite {φ : Prop} [Decidable φ] {c d : FsM α} (hc : OnBody ip c)
    (hd : OnBody ip d) : OnBody ip (if φ then c else d) := by
  split
  · exact hc
  · exact hd

/-- A program that only looks at the state. -/
theorem OnBody.look (f : State → α) : OnBody ip (fun s => .ok (f s) s : FsM α) :=
  fun s => Body.refl ip s

theorem edit_onBody (f : Dinode → Dinode) : OnBody ip (edit ip f) := by
  intro s
  constructor
  · intro e he
    exact Function.update_of_ne he _ _
  all_goals simp

theorem setBlock_onBody (b : ℕ) (x : ℕ → UInt8) : OnBody ip (setBlock b x) := by
  intro s
  constructor <;> intros <;> rfl

theorem setBit_onBody (b : ℕ) (v : Bool) : OnBody ip (setBit b v) := by
  intro s
  constructor <;> intros <;> rfl

theorem logWrite_onBody (x : Target) : OnBody ip (logWrite x) := by
  intro s
  unfold logWrite
  split
  · exact trivial
  · constructor <;> intros <;> rfl

theorem logBlock_onBody (b : ℕ) : OnBody ip (logBlock b) := by
  intro s
  unfold logBlock
  split
  · exact trivial
  · constructor <;> intros <;> rfl

theorem copyIn_onBody (b off : ℕ) (bytes : List UInt8) : OnBody ip (copyIn b off bytes) := by
  intro s
  constructor <;> intros <;> rfl

theorem iupdate_onBody : OnBody ip (iupdate ip) := by
  intro s
  -- the inode that is written is the one the frame leaves open
  have hset : Body ip s
      { s with dinode := Function.update s.dinode (s.itable ip).inum (s.itable ip).d } := by
    constructor
    case disk =>
      intro i hi
      exact Function.update_of_ne hi _ _
    all_goals intros; rfl
  exact (logWrite_onBody _ _).post fun _ _ htu => hset.trans htu

theorem balloc_onBody (sb : Superblock) : OnBody ip (balloc sb) := by
  apply OnBody.bind (OnBody.look _)
  rintro (_ | b)
  · exact OnBody.ret _
  · exact (setBit_onBody _ _).bind fun _ => (logWrite_onBody _).bind fun _ =>
      ((setBlock_onBody _ _).bind fun _ => logBlock_onBody _).bind fun _ => OnBody.ret _

theorem bfree_onBody (b : ℕ) : OnBody ip (bfree b) := by
  apply OnBody.bind (OnBody.look _)
  intro v
  exact OnBody.ite (OnBody.panic _) ((setBit_onBody _ _).bind fun _ => logWrite_onBody _)

theorem bmapDirect_onBody (sb : Superblock) (i : ℕ) : OnBody ip (bmapDirect sb ip i) := by
  apply OnBody.bind (OnBody.look _)
  intro x
  apply OnBody.ite _ (OnBody.ret _)
  apply OnBody.bind (balloc_onBody sb)
  intro addr
  exact OnBody.ite (OnBody.ret _) ((edit_onBody _).bind fun _ => OnBody.ret _)

theorem bmapIndirect_onBody (sb : Superblock) (b j : ℕ) : OnBody ip (bmapIndirect sb b j) := by
  apply OnBody.bind (OnBody.look _)
  intro a
  apply OnBody.ite _ (OnBody.ret _)
  apply OnBody.bind (balloc_onBody sb)
  intro addr
  apply OnBody.ite (OnBody.ret _)
  apply OnBody.bind (OnBody.look _)
  intro a
  exact (setBlock_onBody _ _).bind fun _ => (logBlock_onBody _).bind fun _ => OnBody.ret _

theorem bmap_onBody (sb : Superblock) (bn : ℕ) : OnBody ip (bmap sb ip bn) := by
  apply OnBody.ite (bmapDirect_onBody sb bn)
  apply OnBody.ite _ (OnBody.panic _)
  apply OnBody.bind (bmapDirect_onBody sb _)
  intro addr
  exact OnBody.ite (OnBody.ret _) (bmapIndirect_onBody sb _ _)

/-! ## `itrunc`, `readi` and `writei` -/

theorem truncDirect_onBody (n : ℕ) : ∀ i, OnBody ip (truncDirect ip n i) := by
  induction n with
  | zero => exact fun _ => OnBody.ret _
  | succ n ih =>
    intro i
    apply OnBody.bind (OnBody.look _)
    intro x
    apply OnBody.ite _ (ih _)
    exact (bfree_onBody _).bind fun _ => (edit_onBody _).bind fun _ => ih _

theorem truncIndirect_onBody (a : ℕ → UInt8) (n : ℕ) : ∀ j, OnBody ip (truncIndirect a n j) := by
  induction n with
  | zero => exact fun _ => OnBody.ret _
  | succ n ih =>
    intro j
    apply OnBody.ite _ (ih _)
    exact (bfree_onBody _).bind fun _ => ih _

theorem itrunc_onBody : OnBody ip (itrunc ip) := by
  apply OnBody.bind (truncDirect_onBody _ _)
  intro _
  apply OnBody.bind (OnBody.look _)
  intro x
  apply OnBody.ite
  · apply OnBody.bind (OnBody.look _)
    intro a
    exact (truncIndirect_onBody _ _ _).bind fun _ => (bfree_onBody _).bind fun _ =>
      (edit_onBody _).bind fun _ => (edit_onBody _).bind fun _ => iupdate_onBody
  · exact (edit_onBody _).bind fun _ => iupdate_onBody

theorem ifree_onBody : OnBody ip (ifree ip) :=
  itrunc_onBody.bind fun _ => (edit_onBody _).bind fun _ => iupdate_onBody

theorem readLoop_onBody (sb : Superblock) (ok : ℕ → Bool) (fuel : ℕ) :
    ∀ tot off n bytes, OnBody ip (readLoop sb ip ok fuel tot off n bytes) := by
  induction fuel with
  | zero => exact fun _ _ _ _ => OnBody.ret _
  | succ fuel ih =>
    intro tot off n bytes
    apply OnBody.ite _ (OnBody.ret _)
    apply OnBody.bind (bmap_onBody sb _)
    intro addr
    apply OnBody.ite (OnBody.ret _)
    apply OnBody.bind (OnBody.look _)
    intro a
    exact OnBody.ite (OnBody.ret _) (ih _ _ _ _)

theorem readi_onBody (sb : Superblock) (ok : ℕ → Bool) (off n : ℕ) :
    OnBody ip (readi sb ip ok off n) := by
  apply OnBody.bind (OnBody.look _)
  intro x
  apply OnBody.ite (OnBody.ret _)
  exact OnBody.ite (readLoop_onBody sb _ _ _ _ _ _) (readLoop_onBody sb _ _ _ _ _ _)

theorem writeLoop_onBody (sb : Superblock) (src : ℕ → Option UInt8) (fuel : ℕ) :
    ∀ tot off n, OnBody ip (writeLoop sb ip src fuel tot off n) := by
  induction fuel with
  | zero => exact fun _ _ _ => OnBody.ret _
  | succ fuel ih =>
    intro tot off n
    apply OnBody.ite _ (OnBody.ret _)
    apply OnBody.bind (bmap_onBody sb _)
    intro addr
    apply OnBody.ite (OnBody.ret _)
    apply OnBody.bind (copyIn_onBody _ _ _)
    intro _
    exact OnBody.ite (OnBody.ret _) ((logBlock_onBody _).bind fun _ => ih _ _ _)

theorem writei_onBody (sb : Superblock) (src : ℕ → Option UInt8) (off n : ℕ) :
    OnBody ip (writei sb ip src off n) := by
  apply OnBody.bind (OnBody.look _)
  intro x
  apply OnBody.ite (OnBody.ret _)
  apply OnBody.ite (OnBody.ret _)
  apply OnBody.bind (writeLoop_onBody sb _ _ _ _ _)
  intro r
  exact (edit_onBody _).bind fun _ => iupdate_onBody.bind fun _ => OnBody.ret _

end Fs
