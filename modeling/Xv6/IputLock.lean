/-
# iput takes a sleep-lock under itable.lock (kernel/fs.c)

`iput` calls `acquiresleep` while it holds the spin-lock `itable.lock`, when it has found
the last reference to an inode without links.  It never finds the sleep-lock taken: every
holder of the lock has a reference of its own, also in `namex`, which gives up a directory
after it has looked up the next inode in it, and in `dirlink`, which puts an inode found in
a directory that it holds locked, perhaps that directory itself.

The inodes are those of `Itable`; here `iput` stops between its test and `acquiresleep`.
A process calls `iput` for a pointer, or hands it on, only if it is not the one through
which it holds the lock.  What `dirlookup` finds is left open.
-/
import Xv6.LastRef
import Xv6.Layout

namespace Itable

open Function Transition

/-- Directories have this type (`kernel/stat.h`). -/
def T_DIR : CShort := 1

/-- The variables of `namex`, with the number of path elements left. -/
structure Namex where
  ip : ℕ
  left : ℕ
  nameiparent : Bool
  deriving DecidableEq

/-- Where a process stands; after `iput` it returns, or goes on in `namex` with `k`. -/
inductive Place where
  | idle
  /-- `namex` before `ilock(ip)` -/
  | namexLock (v : Namex)
  /-- `namex` with `ip` locked -/
  | namexLook (v : Namex)
  | dirlink (dp : ℕ)
  | iunlockput (ip : ℕ) (k : Option Namex)
  | iput (ip : ℕ) (k : Option Namex)
  /-- `iput` has found the last reference and holds `itable.lock` -/
  | iputAcquire (ip : ℕ) (k : Option Namex)
  /-- `iput` holds `ip->lock` -/
  | iputFree (ip : ℕ) (k : Option Namex)
  /-- `iput` before its last section -/
  | iputDrop (ip : ℕ) (k : Option Namex)
  deriving DecidableEq

/-- The inodes, the process that holds `itable.lock` between two steps, and the processes. -/
structure Sys where
  table : St
  holder : Option ℕ
  place : ℕ → Place

def Sys.start (disk : ℕ → Dinode) : Sys := ⟨init disk, none, fun _ => .idle⟩

/-- Process `p` goes on at `c`. -/
def Sys.set (s : Sys) (p : ℕ) (t : St) (c : Place) : Sys :=
  { s with table := t, place := update s.place p c }

def Sys.panic (s : Sys) (p : ℕ) (msg : String) : Sys :=
  s.set p { s.table with panicked := some msg } .idle

/-- `ip->ref--`. -/
def St.dropRef (s : St) (p e : ℕ) : St :=
  { s.setInode e { s.inode e with ref := (s.inode e).ref - 1 } with refs := s.refs.erase (p, e) }

def St.setLock (s : St) (e : ℕ) (o : Option ℕ) : St :=
  s.setInode e { s.inode e with lock := o }

def Sys.iget (s : Sys) (p inum : ℕ) (c : ℕ → Place) : Sys :=
  match Itable.iget s.table inum with
  | .error msg => s.panic p msg
  | .ok (e, ip) => s.set p { s.table.setInode e ip with refs := (p, e) :: s.table.refs } (c e)

def Sys.iunlock (s : Sys) (p e : ℕ) (c : Place) : Sys :=
  if (s.table.inode e).lock = some p ∧ 0 < (s.table.inode e).ref then
    s.set p (s.table.setLock e none) c
  else s.panic p "iunlock"

/-- The process goes on at `c`, or with the inode that was found at `c'`. -/
def Sys.dirlookup (s : Sys) (p dp : ℕ) (found : Option ℕ) (c : Place) (c' : ℕ → Place) :
    Option Sys :=
  if (s.table.inode dp).type ≠ T_DIR then some (s.panic p "dirlookup not DIR")
  else match found with
    | none => some (s.set p s.table c)
    | some inum => if s.holder ≠ none then none else some (s.iget p inum c')

/-- The head of the loop of `namex`. -/
def Namex.loop (v : Namex) : Place :=
  match v.left with
  | 0 => if v.nameiparent then .iput v.ip none else .idle
  | n + 1 => .namexLock { v with left := n }

/-- The return from `iput`. -/
def resume : Option Namex → Place
  | none => .idle
  | some v => v.loop

/-- The next section of a process; `found` is what `dirlookup` finds. -/
def Sys.advance (s : Sys) (p : ℕ) (found : Option ℕ) : Option Sys :=
  match s.place p with
  | .idle => none
  | .namexLock v => (stepIlock s.table p v.ip).map fun t => s.set p t (.namexLook v)
  | .namexLook v =>
    if (s.table.inode v.ip).type ≠ T_DIR then some (s.set p s.table (.iunlockput v.ip none))
    else if v.nameiparent ∧ v.left = 0 then some (s.iunlock p v.ip .idle)
    else s.dirlookup p v.ip found (.iunlockput v.ip none)
      fun next => .iunlockput v.ip (some { v with ip := next })
  | .dirlink dp => s.dirlookup p dp found .idle fun ip => .iput ip none
  | .iunlockput ip k => some (s.iunlock p ip (.iput ip k))
  | .iput e k =>
    if s.holder ≠ none then none
    else if (s.table.inode e).ref = 1 ∧ (s.table.inode e).valid ∧ (s.table.inode e).nlink = 0 then
      some { s.set p s.table (.iputAcquire e k) with holder := some p }
    else some (s.set p (s.table.dropRef p e) (resume k))
  | .iputAcquire e k =>
    if (s.table.inode e).lock ≠ none then none
    else some { s.set p (s.table.setLock e (some p)) (.iputFree e k) with holder := none }
  | .iputFree e k =>
    let ip := s.table.inode e
    some (s.set p ((s.table.setInode e { ip with type := 0, valid := false, lock := none }).setDisk
      ip.inum ⟨0, ip.nlink⟩) (.iputDrop e k))
  | .iputDrop e k =>
    if s.holder ≠ none then none else some (s.set p (s.table.dropRef p e) (resume k))

/-- The pointers of `p` to entry `e`. -/
def St.own (s : St) (p e : ℕ) : ℕ := s.refs.count (p, e)

def St.locks (s : St) (p e : ℕ) : ℕ := if (s.inode e).lock = some p then 1 else 0

/-- What a process may do when it is not inside one of the functions. -/
inductive Call where
  | iget (inum : ℕ)
  | idup (q e : ℕ)
  | give (q e : ℕ)
  | ilock (e : ℕ)
  | relink (e : ℕ) (r : Relink)
  | iunlock (e : ℕ)
  | iput (e : ℕ)
  /-- from the root, or from the current directory -/
  | namex (cwd : Option ℕ) (left : ℕ) (nameiparent : Bool)
  | dirlink (dp : ℕ)

def Sys.call (s : Sys) (p : ℕ) : Call → Option Sys
  | .iget inum => if s.holder ≠ none then none else some (s.iget p inum fun _ => .idle)
  | .idup q e =>
    if s.holder = none ∧ 0 < s.table.own p e then some (s.set p (stepIdup s.table q e) .idle)
    else none
  | .give q e =>
    if s.table.own p e ≤ s.table.locks p e then none
    else some (s.set p { s.table with refs := (q, e) :: s.table.refs.erase (p, e) } .idle)
  | .ilock e =>
    if 0 < s.table.own p e then (stepIlock s.table p e).map fun t => s.set p t .idle else none
  | .relink e r =>
    if (s.table.inode e).lock ≠ some p then none
    else some (s.set p (stepRelink s.table e r) .idle)
  | .iunlock e => some (s.iunlock p e .idle)
  | .iput e =>
    if s.table.own p e ≤ s.table.locks p e then none else some (s.set p s.table (.iput e none))
  | .namex none n parent =>
    if s.holder ≠ none then none else some (s.iget p ROOTINO fun ip => Namex.loop ⟨ip, n, parent⟩)
  | .namex (some e) n parent =>
    if s.holder = none ∧ 0 < s.table.own p e then
      some (s.set p (stepIdup s.table p e) (Namex.loop ⟨e, n, parent⟩))
    else none
  | .dirlink dp =>
    if (s.table.inode dp).lock ≠ some p then none else some (s.set p s.table (.dirlink dp))

/-- Process `p` calls a function, or goes on inside one. -/
inductive Move where
  | call (p : ℕ) (c : Call)
  | advance (p : ℕ) (found : Option ℕ)

def Sys.step (s : Sys) : Move → Option Sys
  | .call p c => if s.table.panicked = none ∧ s.place p = .idle then s.call p c else none
  | .advance p found => if s.table.panicked = none then s.advance p found else none

/-! ## Every holder of a lock has a reference of its own -/

/-- The pointers to `e` in the variables of a process, apart from the one through which it
holds a lock. -/
def Place.puts (c : Place) (e : ℕ) : ℕ :=
  let next (k : Option Namex) : ℕ := if k.map Namex.ip = some e then 1 else 0
  match c with
  | .idle | .namexLook _ | .dirlink _ => 0
  | .namexLock v => if v.ip = e then 1 else 0
  | .iunlockput _ k | .iputFree _ k => next k
  | .iput ip k | .iputAcquire ip k | .iputDrop ip k => (if ip = e then 1 else 0) + next k

/-- The process is not in the part of `iput` that frees an inode. -/
def Place.plain : Place → Bool
  | .iputAcquire .. | .iputFree .. => false
  | _ => true

structure LockInv (s : Sys) : Prop where
  count : ∀ e, (s.table.inode e).ref = liveRefs s.table e
  share : ∀ p e, s.table.locks p e + (s.place p).puts e ≤ s.table.own p e
  found : ∀ p e k, s.place p = .iputAcquire e k → s.holder = some p ∧ (s.table.inode e).ref = 1
  freeing : ∀ p e k, s.place p = .iputFree e k → (s.table.inode e).lock = some p

/-- `iput` finds the sleep-lock free after its test. -/
def NoBlock (s : Sys) : Prop :=
  ∀ p e k, s.place p = .iputAcquire e k → (s.table.inode e).lock = none

variable {s t : Sys} {T : St} {p q e inum : ℕ} {c : Place} {ip : Inode}

theorem own_add_own_le (hpq : p ≠ q) (e : ℕ) : T.own p e + T.own q e ≤ liveRefs T e := by
  unfold St.own liveRefs
  induction T.refs with
  | nil => simp
  | cons r l ih =>
    simp only [List.count_cons, List.countP_cons, beq_iff_eq, decide_eq_true_eq, Prod.ext_iff]
    split_ifs <;> grind

theorem noBlock_of_lockInv (h : LockInv s) : NoBlock s := by
  intro p e k hp
  have hfound := (h.found p e k hp).2
  have hshare := h.share p e
  rw [hp] at hshare
  simp only [Place.puts, if_true] at hshare
  cases hl : (s.table.inode e).lock with
  | none => rfl
  | some q =>
    have hcount := h.count e
    by_cases hpq : p = q
    · have hlocks : s.table.locks p e = 1 := by rw [St.locks, hl, hpq, if_pos rfl]
      have := own_add_own_le (T := s.table) (Nat.succ_ne_self p).symm e
      omega
    · have hq := h.share q e
      have hlocks : s.table.locks q e = 1 := by rw [St.locks, hl, if_pos rfl]
      have := own_add_own_le (T := s.table) hpq e
      omega

/-- A step of process `p`, which takes no lock of another process and no pointer. -/
theorem LockInv.step (h : LockInv s) (hplace : t.place = update s.place p c)
    (hcount : ∀ e, (t.table.inode e).ref = liveRefs t.table e)
    (hlock : ∀ q ≠ p, ∀ e, (t.table.inode e).lock = some q ↔ (s.table.inode e).lock = some q)
    (hown : ∀ q ≠ p, ∀ e, s.table.own q e ≤ t.table.own q e) (hheld : ∀ q ≠ p, s.holder = some q →
      t.holder = some q ∧ ∀ e, (t.table.inode e).ref = (s.table.inode e).ref)
    (hshare : ∀ e, t.table.locks p e + c.puts e ≤ t.table.own p e)
    (hfound : ∀ e k, c = .iputAcquire e k → t.holder = some p ∧ (t.table.inode e).ref = 1)
    (hfree : ∀ e k, c = .iputFree e k → (t.table.inode e).lock = some p) : LockInv t := by
  have hself : t.place p = c := by rw [hplace, update_self]
  have hother : ∀ q ≠ p, t.place q = s.place q := fun q hq => by rw [hplace, update_of_ne hq]
  refine ⟨hcount, fun q e => ?_, fun q e k hq => ?_, fun q e k hq => ?_⟩
  all_goals
    rcases eq_or_ne q p with rfl | hqp
  · rw [hself]
    exact hshare e
  · rw [hother q hqp]
    have := h.share q e
    have := hown q hqp e
    simp only [St.locks, hlock q hqp e] at *
    omega
  · exact hfound e k (hself ▸ hq)
  · rw [hother q hqp] at hq
    obtain ⟨hs, hr⟩ := h.found q e k hq
    exact (hheld q hqp hs).imp_right fun href => (href e).trans hr
  · exact hfree e k (hself ▸ hq)
  · rw [hother q hqp] at hq
    exact (hlock q hqp e).mpr (h.freeing q e k hq)

/-- A step that changes no lock and keeps the process out of the part of `iput` that frees. -/
theorem LockInv.refs (h : LockInv s) (hlock : ∀ e, (T.inode e).lock = (s.table.inode e).lock)
    (hcount : ∀ e, (T.inode e).ref = liveRefs T e)
    (hown : ∀ q ≠ p, ∀ e, s.table.own q e ≤ T.own q e)
    (hheld : s.holder = none ∨ ∀ e, (T.inode e).ref = (s.table.inode e).ref)
    (hshare : ∀ e, s.table.locks p e + c.puts e ≤ T.own p e) (hc : c.plain) :
    LockInv (s.set p T c) := by
  refine h.step rfl hcount (fun q _ e => ?_) hown (fun q _ hq => ⟨hq, fun e => ?_⟩)
    (fun e => ?_) (by rintro e k rfl; cases hc) (by rintro e k rfl; cases hc)
  · rw [← hlock e]
    rfl
  · rcases hheld with hnone | href
    · rw [hnone] at hq
      cases hq
    · exact href e
  · have := hshare e
    simpa only [Sys.set, St.locks, hlock e] using this

/-- A step that takes or releases the lock of entry `e`. -/
theorem LockInv.relock (h : LockInv s) {o : Option ℕ} (hT : T.inode = update s.table.inode e ip)
    (hrefs : T.refs = s.table.refs) (href : ip.ref = (s.table.inode e).ref)
    (hheld : o = s.holder ∨ s.holder = some p)
    (hold : (s.table.inode e).lock = none ∨ (s.table.inode e).lock = some p)
    (hnew : ip.lock = none ∨ ip.lock = some p)
    (hshare : (if ip.lock = some p then 1 else 0) + c.puts e ≤ s.table.own p e)
    (hputs : ∀ e' ≠ e, c.puts e' ≤ (s.place p).puts e') (hc : ∀ e k, c ≠ .iputAcquire e k)
    (hfree : ∀ e' k, c = .iputFree e' k → e' = e ∧ ip.lock = some p) :
    LockInv { s.set p T c with holder := o } := by
  have hrefEq : ∀ e', (T.inode e').ref = (s.table.inode e').ref := fun e' => by
    rcases eq_or_ne e' e with rfl | he
    · rw [hT, update_self, href]
    · rw [hT, update_of_ne he]
  refine h.step rfl (fun e' => ?_) (fun q hq e' => ?_) (fun q _ e' => ?_)
    (fun q hq hs => ⟨?_, hrefEq⟩) (fun e' => ?_) (fun e' k hk => (hc e' k hk).elim)
    (fun e' k hk => ?_)
  all_goals simp only [Sys.set, St.own, hrefs]
  · rw [hrefEq, h.count, liveRefs, liveRefs, hrefs]
  · rcases eq_or_ne e' e with rfl | he
    · rw [hT, update_self]
      grind
    · rw [hT, update_of_ne he]
  · exact le_rfl
  · grind
  · rcases eq_or_ne e' e with rfl | he
    · simpa only [St.locks, St.own, hT, update_self] using hshare
    · have := h.share p e'
      have := hputs e' he
      simp only [St.locks, St.own, hT, update_of_ne he] at *
      omega
  · obtain ⟨rfl, hl⟩ := hfree e' k hk
    rw [hT, update_self, hl]

/-! ## The steps -/

theorem resume_spec (k : Option Namex) :
    (resume k).plain ∧ ∀ e, (resume k).puts e ≤ (Place.iunlockput 0 k).puts e := by
  rcases k with _ | ⟨ip, n, parent⟩
  · exact ⟨rfl, fun e => Nat.zero_le _⟩
  · cases n <;> cases parent <;> simp [resume, Namex.loop, Place.plain, Place.puts]

/-- A step without effect on the references and the locks. -/
theorem LockInv.goto (h : LockInv s)
    (hT : ∀ e, (T.inode e).ref = (s.table.inode e).ref ∧ (T.inode e).lock = (s.table.inode e).lock)
    (hrefs : T.refs = s.table.refs) (hshare : ∀ e, s.table.locks p e + c.puts e ≤ s.table.own p e)
    (hc : c.plain) : LockInv (s.set p T c) := by
  refine h.refs (fun e => (hT e).2) (fun e => ?_) (fun q _ e => ?_) (.inr fun e => (hT e).1)
    (fun e => ?_) hc
  · rw [(hT e).1, h.count, liveRefs, liveRefs, hrefs]
  · rw [St.own, St.own, hrefs]
  · rw [St.own, hrefs]
    exact hshare e

theorem LockInv.panic (h : LockInv s) (p : ℕ) (msg : String) : LockInv (s.panic p msg) :=
  h.goto (fun _ => ⟨rfl, rfl⟩) rfl
    (fun e => (Nat.add_le_add_left (Nat.zero_le _) _).trans (h.share p e)) rfl

/-- Process `q` gets a pointer to entry `e`. -/
theorem LockInv.addRef (h : LockInv s) (hfree : s.holder = none)
    (hip : ip.ref = (s.table.inode e).ref + 1 ∧ ip.lock = (s.table.inode e).lock)
    (hshare : ∀ e', s.table.locks p e' + c.puts e' ≤
      s.table.own p e' + if q = p ∧ e = e' then 1 else 0) (hc : c.plain) :
    LockInv (s.set p { s.table.setInode e ip with refs := (q, e) :: s.table.refs } c) := by
  refine h.refs (fun e' => ?_) (fun e' => ?_) (fun r _ e' => ?_) (.inl hfree) (fun e' => ?_) hc
  · rcases eq_or_ne e' e with rfl | he
    · simp [St.setInode, hip.2]
    · simp [St.setInode, he]
  · have := h.count e'
    rcases eq_or_ne e' e with rfl | he
    · simp_all [St.setInode, liveRefs]
    · simp_all [St.setInode, liveRefs, he.symm]
  · simp [St.own, List.count_cons]
  · have := hshare e'
    simpa [St.own, List.count_cons] using this

theorem LockInv.iget (h : LockInv s) (hfree : s.holder = none) {c : ℕ → Place}
    (hshare : ∀ e e', s.table.locks p e' + (c e).puts e' ≤
      s.table.own p e' + if e = e' then 1 else 0) (hc : ∀ e, (c e).plain) :
    LockInv (s.iget p inum c) := by
  unfold Sys.iget
  split
  · exact h.panic p _
  · rename_i e ip hget
    refine h.addRef hfree ?_ (fun e' => by simpa using hshare e e') (hc e)
    obtain ⟨-, ⟨-, -, rfl⟩ | ⟨h0, -, rfl⟩⟩ := iget_spec hget
    · exact ⟨rfl, rfl⟩
    · exact ⟨by simp [h0], rfl⟩

/-- `ip->ref--` at the end of `iput`. -/
theorem LockInv.dropRef (h : LockInv s) (hfree : s.holder = none) {k : Option Namex}
    (hp : s.place p = .iput e k ∨ s.place p = .iputDrop e k) :
    LockInv (s.set p (s.table.dropRef p e) (resume k)) := by
  have hputs : ∀ e', (s.place p).puts e' =
      (if e = e' then 1 else 0) + (Place.iunlockput 0 k).puts e' := by
    rcases hp with hp | hp <;> exact fun e' => by rw [hp]; rfl
  have hmem : (p, e) ∈ s.table.refs := by
    have := h.share p e
    rw [hputs, if_pos rfl] at this
    exact List.count_pos_iff.mp (show 0 < s.table.own p e by omega)
  refine h.refs (fun e' => ?_) (fun e' => ?_) (fun q hq e' => ?_) (.inl hfree) (fun e' => ?_)
    (resume_spec k).1
  · rcases eq_or_ne e' e with rfl | he
    · simp [St.dropRef, St.setInode]
    · simp [St.dropRef, St.setInode, he]
  · have := h.count e'
    have hsum := countP_refs_erase hmem e'
    rcases eq_or_ne e' e with rfl | he
    · simp_all [St.dropRef, St.setInode, liveRefs]
      omega
    · simp_all [St.dropRef, St.setInode, liveRefs]
  · simp [St.own, St.dropRef, List.count_erase, hq.symm]
  · have hshare := h.share p e'
    rw [hputs] at hshare
    have := (resume_spec k).2 e'
    simp only [St.own, St.dropRef, List.count_erase, beq_iff_eq, Prod.mk.injEq, true_and] at *
    split_ifs at * <;> omega

theorem LockInv.iunlock (h : LockInv s)
    (hputs : ∀ e', c.puts e' ≤ (if e = e' then 1 else 0) + (s.place p).puts e') (hc : c.plain) :
    LockInv (s.iunlock p e c) := by
  unfold Sys.iunlock
  split_ifs with hl
  · refine h.relock rfl rfl rfl (.inl rfl) (.inr hl.1) (.inl rfl) ?_ (fun e' he => ?_)
      (by rintro e k rfl; cases hc) (by rintro e k rfl; cases hc)
    · have hp := h.share p e
      have := hputs e
      rw [if_pos rfl] at this
      rw [St.locks, if_pos hl.1] at hp
      simp only [reduceCtorEq, if_false]
      omega
    · simpa only [if_neg he.symm, zero_add] using hputs e'
  · exact h.panic p _

theorem LockInv.ilock (h : LockInv s) (hstep : stepIlock s.table p e = some T)
    (hown : c.puts e < s.table.own p e) (hputs : ∀ e', c.puts e' ≤ (s.place p).puts e')
    (hc : c.plain) : LockInv (s.set p T c) := by
  have hsame : ∀ msg, LockInv (s.set p { s.table with panicked := some msg } c) := fun msg =>
    h.goto (fun _ => ⟨rfl, rfl⟩) rfl
      (fun e => (Nat.add_le_add_left (hputs e) _).trans (h.share p e)) hc
  unfold stepIlock at hstep
  split_ifs at hstep with href hl
  · cases hstep
    exact hsame _
  · split at hstep
    · cases hstep
      exact hsame _
    · rename_i ip hip
      cases hstep
      refine h.relock rfl rfl ?_ (.inl rfl) (.inl (not_not.mp hl)) (.inr rfl) ?_
        (fun e' _ => hputs e') (by rintro e k rfl; cases hc) (by rintro e k rfl; cases hc)
      · obtain ⟨-, rfl⟩ | ⟨-, -, rfl⟩ := readInode_cases hip <;> rfl
      · rw [if_pos rfl]
        omega

theorem LockInv.dirlookup (h : LockInv s) {found : Option ℕ} {dp : ℕ} {c' : ℕ → Place}
    (hstep : s.dirlookup p dp found c c' = some t)
    (hshare : ∀ e, s.table.locks p e + c.puts e ≤ s.table.own p e)
    (hshare' : ∀ e e', s.table.locks p e' + (c' e).puts e' ≤
      s.table.own p e' + if e = e' then 1 else 0) (hc : c.plain) (hc' : ∀ e, (c' e).plain) :
    LockInv t := by
  unfold Sys.dirlookup at hstep
  split at hstep
  · cases hstep
    exact h.panic p _
  · split at hstep
    · cases hstep
      exact h.goto (fun _ => ⟨rfl, rfl⟩) rfl hshare hc
    · split_ifs at hstep with hheld
      cases hstep
      exact h.iget (not_not.mp hheld) hshare' hc'

theorem lockInv_advance (h : LockInv s) {found : Option ℕ} (hstep : s.advance p found = some t) :
    LockInv t := by
  have hp := h.share p
  unfold Sys.advance at hstep
  split at hstep
  case h_1 => cases hstep
  case h_2 v hv =>
    obtain ⟨T, hT, rfl⟩ := Option.map_eq_some_iff.mp hstep
    refine h.ilock hT ?_ (fun e' => Nat.zero_le _) rfl
    have := hp v.ip
    simp only [hv, Place.puts, if_true] at this ⊢
    omega
  case h_3 v hv =>
    simp only [hv, Place.puts, add_zero] at hp
    split_ifs at hstep
    · cases hstep
      exact h.goto (fun _ => ⟨rfl, rfl⟩) rfl hp rfl
    · cases hstep
      exact h.iunlock (fun _ => Nat.zero_le _) rfl
    · refine h.dirlookup hstep hp (fun e e' => ?_) rfl fun _ => rfl
      simpa [Place.puts] using hp e'
  case h_4 dp hv =>
    simp only [hv, Place.puts, add_zero] at hp
    refine h.dirlookup hstep hp (fun e e' => ?_) rfl fun _ => rfl
    simpa [Place.puts] using hp e'
  case h_5 e k hv =>
    cases hstep
    exact h.iunlock (fun e' => by rw [hv]; exact le_rfl) rfl
  case h_6 e k hv =>
    split_ifs at hstep with hheld hlast
    · cases hstep
      refine h.step rfl h.count (fun _ _ _ => .rfl) (fun _ _ _ => le_rfl) ?_ ?_ ?_ nofun
      · intro q _ hq
        rw [not_not.mp hheld] at hq
        cases hq
      · rw [hv] at hp
        exact hp
      · intro e' k' heq
        cases heq
        exact ⟨rfl, hlast.1⟩
    · cases hstep
      exact h.dropRef (not_not.mp hheld) (.inl hv)
  case h_7 e k hv =>
    split_ifs at hstep with hl
    cases hstep
    refine h.relock rfl rfl rfl (.inr (h.found p e k hv).1) (.inl (not_not.mp hl)) (.inr rfl) ?_
      (fun e' he => ?_) nofun ?_
    · have := hp e
      simp only [hv, Place.puts, if_true] at this ⊢
      omega
    · rw [hv]
      exact Nat.le_add_left ..
    · rintro e' k' heq
      cases heq
      exact ⟨rfl, rfl⟩
  case h_8 e k hv =>
    cases hstep
    have hl := h.freeing p e k hv
    refine h.relock rfl rfl rfl (.inl rfl) (.inr hl) (.inl rfl) ?_ (fun e' he => ?_) nofun nofun
    · have := hp e
      simp only [hv, St.locks, hl, Place.puts, if_true] at this
      simpa [Place.puts] using this
    · simp [hv, Place.puts, he.symm]
  case h_9 e k hv =>
    split_ifs at hstep with hheld
    cases hstep
    exact h.dropRef (not_not.mp hheld) (.inr hv)

theorem lockInv_call (h : LockInv s) (hidle : s.place p = .idle) {a : Call}
    (hstep : s.call p a = some t) : LockInv t := by
  have hp := h.share p
  simp only [hidle, Place.puts, add_zero] at hp
  have hloop : ∀ v : Namex, v.loop.plain ∧ ∀ e', s.table.locks p e' + v.loop.puts e' ≤
      s.table.own p e' + if v.ip = e' then 1 else 0 := by
    intro v
    refine ⟨(resume_spec (some v)).1, fun e' => Nat.add_le_add (hp e') ?_⟩
    simpa [resume, Place.puts] using (resume_spec (some v)).2 e'
  cases a with
  | iget inum =>
    simp only [Sys.call] at hstep
    split_ifs at hstep with hheld
    cases hstep
    exact h.iget (not_not.mp hheld) (fun e e' => (hp e').trans (Nat.le_add_right ..))
      (fun _ => rfl)
  | idup q e =>
    simp only [Sys.call] at hstep
    split_ifs at hstep with hheld
    cases hstep
    exact h.addRef hheld.1 ⟨rfl, rfl⟩ (fun e' => (hp e').trans (Nat.le_add_right ..)) rfl
  | give q e =>
    simp only [Sys.call] at hstep
    split_ifs at hstep with hown
    cases hstep
    have hmem : (p, e) ∈ s.table.refs := List.count_pos_iff.mp (Nat.zero_lt_of_lt (not_le.mp hown))
    refine h.refs (fun _ => rfl) (fun e' => ?_) (fun r hr e' => ?_) (.inr fun _ => rfl)
      (fun e' => ?_) rfl
    · have hsum := countP_refs_erase hmem e'
      rw [h.count]
      simp only [liveRefs, List.countP_cons, decide_eq_true_eq, eq_comm (a := e)]
      exact hsum.symm
    · simp [St.own, List.count_cons, List.count_erase, hr.symm]
    · have := hp e'
      simp only [St.own, List.count_cons, List.count_erase, beq_iff_eq, Prod.mk.injEq, true_and,
        Place.puts] at *
      split_ifs <;> grind
  | ilock e =>
    simp only [Sys.call] at hstep
    split_ifs at hstep with hown
    obtain ⟨T, hT, rfl⟩ := Option.map_eq_some_iff.mp hstep
    exact h.ilock hT hown (fun e' => Nat.zero_le _) rfl
  | relink e r =>
    simp only [Sys.call] at hstep
    split_ifs at hstep with hl
    cases hstep
    refine h.goto (fun e' => ?_) ?_ hp rfl
    all_goals
      unfold stepRelink
      dsimp only
      split
    · exact ⟨rfl, rfl⟩
    · rcases eq_or_ne e' e with rfl | he
      · simp [St.setDisk, St.setInode]
      · simp [St.setDisk, St.setInode, he]
    · rfl
    · rfl
  | iunlock e =>
    cases hstep
    exact h.iunlock (fun _ => Nat.zero_le _) rfl
  | iput e =>
    simp only [Sys.call] at hstep
    split_ifs at hstep with hown
    cases hstep
    refine h.goto (fun _ => ⟨rfl, rfl⟩) rfl (fun e' => ?_) rfl
    have := hp e'
    simp only [Place.puts]
    split_ifs <;> grind
  | namex cwd n parent =>
    cases cwd with
    | none =>
      simp only [Sys.call] at hstep
      split_ifs at hstep with hheld
      cases hstep
      exact h.iget (not_not.mp hheld) (fun e => (hloop ⟨e, n, parent⟩).2)
        (fun e => (hloop ⟨e, n, parent⟩).1)
    | some e =>
      simp only [Sys.call] at hstep
      split_ifs at hstep with hheld
      cases hstep
      exact h.addRef hheld.1 ⟨rfl, rfl⟩ (by simpa using (hloop ⟨e, n, parent⟩).2)
        (hloop ⟨e, n, parent⟩).1
  | dirlink dp =>
    simp only [Sys.call] at hstep
    split_ifs at hstep with hl
    cases hstep
    exact h.goto (fun _ => ⟨rfl, rfl⟩) rfl hp rfl

theorem lockInv_step (s : Sys) (a : Move) (t : Sys) (h : LockInv s) (hstep : s.step a = some t) :
    LockInv t := by
  cases a with
  | call p c =>
    simp only [Sys.step] at hstep
    split_ifs at hstep with hp
    exact lockInv_call h hp.2 hstep
  | advance p found =>
    simp only [Sys.step] at hstep
    split_ifs at hstep
    exact lockInv_advance h hstep

example : (run Sys.step (Sys.start fun _ => ⟨2, 0⟩) [.call 0 (.iget 5), .call 0 (.ilock 0),
    .call 0 (.iunlock 0), .call 0 (.iput 0), .advance 0 none]).map (fun s => s.place 0) =
    some (.iputAcquire 0 none) := by decide +kernel

end Itable
