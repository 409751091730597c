/-
# Writes through a shared offset

Several calls of `filewrite` run on one open file, which `fork` or `dup` have shared.  Each
call writes its bytes in pieces, and each piece is a transaction of its own in which the
inode is locked; between the pieces the other calls have their turn, and so have operations
that leave the file and its offset alone.

The offset is read and moved under the lock of the inode.  So the pieces are written one
behind the other from the first offset on, in the order in which the lock was taken, and the
pieces of one call stand in the order of the call (`shared_writes_tile`).
-/
import Mathlib.Algebra.BigOperators.Fin
import Xv6.FsBytes

namespace Fs

open Function Hoare
open Calls (NFILE)
open Transition

variable {sb : Superblock} {s t : State} {f : Fin NFILE} {n i : ℕ}

/-! ## One piece -/

/-- One round of the loop of `filewrite`, from `begin_op` to `end_op`. -/
def writePiece (sb : Superblock) (f : Fin NFILE) (src : ℕ → Option UInt8) (n i : ℕ) : FsM ℤ := do
  beginOp
  let x ← file f
  ilock x.ip
  let r ← writei sb x.ip (fun j => src (i + j)) x.off (min (n - i) maxWrite)
  setFile f { x with off := if 0 < r then x.off + r.toNat else x.off }
  iunlock x.ip
  endOp
  pure r

/-- The number of the inode of an open file. -/
def fileInum (s : State) (f : Fin NFILE) : ℕ := (s.itable (s.ftable f).ip).inum

/-- The content of an open file. -/
def fileText (s : State) (f : Fin NFILE) : List UInt8 := fileBytes s.dinode s.block (fileInum s f)

/-- What a piece has done: its bytes are at the offset, and the offset is behind them. -/
structure Appended (f : Fin NFILE) (bytes : List UInt8) (s t : State) : Prop where
  type : (t.ftable f).type = (s.ftable f).type
  inum : fileInum t f = fileInum s f
  off : (t.ftable f).off = (s.ftable f).off + bytes.length
  le : (s.ftable f).off ≤ (fileText s f).length
  text : fileText t f = splice (fileText s f) (s.ftable f).off bytes

/-- The bytes of the piece. -/
def pieceBytes (src : ℕ → UInt8) (n i : ℕ) : List UInt8 :=
  (List.range (min (n - i) maxWrite)).map fun j => src (i + j)

/-- **A piece that is written in full.** -/
theorem writePiece_ends (src : ℕ → UInt8) (h : Settled sb True .off 0 0 s)
    (htype : (s.ftable f).type = .inode) (hi : i < n) :
    Ends (writePiece sb f (fun j => some (src j)) n i s) (fun r t => Settled sb True .off 0 0 t ∧
        (r = (min (n - i) maxWrite : ℕ) → Appended f (pieceBytes src n i) s t))
      (Fine True .off) := by
  unfold writePiece
  rw [beginOp_bind, file_bind]
  have hbegin := h.begin
  have hpos : 0 < (s.begun.itable (s.ftable f).ip).ref :=
    hbegin.inv.refs.pos_of_open (f := f) (Or.inl htype)
  apply (hbegin.lock hpos).bind
  rintro _ t ⟨ht, hload⟩
  have hpos' : 0 < (t.itable (s.ftable f).ip).ref := by
    rw [hload.ref]
    exact hpos
  have hgood := ht.inv.good trivial
  apply (writei_ends ht.inv (fun _ => le_rfl) hpos' (fun _ => hload.valid) _ _ _).bind
  rintro r u ⟨hu, hbody, hdone⟩
  have hft : u.ftable f = s.ftable f := by
    rw [hbody.ftable, hload.ftable, State.begun_ftable]
  rw [bind_of_ok (rfl : setFile f _ u = .ok () _)]
  have hus : Settled sb True .off 1 0 u := ⟨hu, fun hg => hg.elim, fun hg => hg.elim⟩
  have hset := hus.setOff (f := f) (n := if 0 < r then (s.ftable f).off + r.toNat
    else (s.ftable f).off) (by rw [hft])
  apply (hset.unlock (by rw [← hbody.ref] at hpos'; exact hpos')).bind
  rintro _ _ ⟨hx, rfl⟩
  rw [endOp_bind]
  refine ⟨hx.finish, fun hr => ?_⟩
  have hn : 0 < min (n - i) maxWrite := Nat.lt_min.mpr ⟨by omega, by decide⟩
  rcases hdone trivial with ⟨hfail, -⟩ | ⟨m, hm, hsaved⟩
  · omega
  have hmn : m = min (n - i) maxWrite := by omega
  subst hmn
  have hold : fileBytes t.dinode t.block (t.itable (s.ftable f).ip).inum = fileText s f := by
    rw [hload.inum, hload.disk.dinode, hload.disk.block]
    rfl
  have hinum : (u.itable (s.ftable f).ip).inum = (t.itable (s.ftable f).ip).inum := hbody.inum
  have hlen : (fileText s f).length = (t.itable (s.ftable f).ip).d.size := by
    rw [← hold, ← hgood.clean _ hpos' hload.valid]
    simp [fileBytes]
  constructor
  · simp
  · simp [fileInum, hinum, hload.inum]
  · have hoff : 0 < r := by omega
    simp only [State.ended_ftable, update_self, if_pos hoff, pieceBytes, List.length_map,
      List.length_range]
    omega
  · rw [hlen]
    exact hsaved.start
  · have htext := hsaved.fileBytes_eq (fun j => src (i + j)) hgood hpos' hload.valid
    rw [hold, State.begun_ftable] at htext
    rw [pieceBytes, ← htext]
    simp [fileText, fileInum, hinum]

/-! ## Interleaved calls -/

/-- A call of `filewrite`: the source, the number of bytes, and how many are written. -/
structure Writer where
  src : ℕ → UInt8
  n : ℕ
  i : ℕ

/-- A piece that a call has written, and where. -/
structure Piece (κ : Type) where
  call : κ
  off : ℕ
  bytes : List UInt8

/-- The calls on one open file, and the pieces in the order in which the inode was locked. -/
structure Sharing (κ : Type) where
  fs : State
  calls : κ → Writer
  pieces : List (Piece κ)

/-- A call writes its next piece, or another operation takes place. -/
inductive ShareAct (κ : Type) where
  | piece (k : κ)
  | other (op : Op)

/-- Nobody else has written to the file, truncated it or moved its offset. -/
def Undisturbed (f : Fin NFILE) (s t : State) : Prop :=
  (t.ftable f).type = (s.ftable f).type ∧ fileInum t f = fileInum s f ∧
    (t.ftable f).off = (s.ftable f).off ∧ fileText t f = fileText s f

instance : Decidable (Undisturbed f s t) := by
  unfold Undisturbed
  infer_instance

variable {κ : Type} [DecidableEq κ]

/-- Call `k` has written its next piece, which has left the file system in state `t`. -/
def Sharing.advance (f : Fin NFILE) (S : Sharing κ) (k : κ) (t : State) : Sharing κ where
  fs := t
  calls := update S.calls k { S.calls k with
    i := (S.calls k).i + min ((S.calls k).n - (S.calls k).i) maxWrite }
  pieces := S.pieces ++ [⟨k, (S.fs.ftable f).off,
    pieceBytes (S.calls k).src (S.calls k).n (S.calls k).i⟩]

/-- A step.  A piece that fails, and an operation that disturbs the file, are none. -/
def shareStep (sb : Superblock) (f : Fin NFILE) (S : Sharing κ) : ShareAct κ → Option (Sharing κ)
  | .piece k =>
    if (S.calls k).i < (S.calls k).n then
      match writePiece sb f (fun j => some ((S.calls k).src j)) (S.calls k).n (S.calls k).i S.fs with
      | .ok r t =>
        if r = (min ((S.calls k).n - (S.calls k).i) maxWrite : ℕ) then some (S.advance f k t)
        else none
      | .error _ _ => none
    else none
  | .other op =>
    match opStep sb S.fs op with
    | some t => if Undisturbed f S.fs t then some { S with fs := t } else none
    | none => none

/-- What the pieces say one after the other. -/
def texts (ps : List (Piece κ)) : List UInt8 := ps.flatMap Piece.bytes

/-- The first piece starts at the offset, and each other one where the one before it ends. -/
def Consecutive : ℕ → List (Piece κ) → Prop
  | _, [] => True
  | off, p :: ps => p.off = off ∧ Consecutive (off + p.bytes.length) ps

omit [DecidableEq κ] in
theorem Consecutive.append {p : Piece κ} : ∀ {ps : List (Piece κ)} {off : ℕ}, Consecutive off ps →
    p.off = off + (texts ps).length → Consecutive off (ps ++ [p])
  | [], off, _, hp => ⟨by simpa [texts] using hp, trivial⟩
  | q :: ps, off, h, hp => by
    refine ⟨h.1, h.2.append ?_⟩
    rw [hp]
    simp only [texts, List.flatMap_cons, List.length_append]
    omega

omit [DecidableEq κ] in
theorem Consecutive.off_le : ∀ {ps : List (Piece κ)} {off : ℕ}, Consecutive off ps →
    ∀ p ∈ ps, off ≤ p.off
  | [], _, _, p, hp => absurd hp (List.not_mem_nil)
  | q :: ps, off, h, p, hp => by
    rcases List.mem_cons.mp hp with rfl | hp
    · exact h.1.ge
    · have := h.2.off_le p hp
      omega

omit [DecidableEq κ] in
/-- Consecutive pieces do not overlap. -/
theorem Consecutive.disjoint : ∀ {ps : List (Piece κ)} {off : ℕ}, Consecutive off ps →
    ps.Pairwise fun p q => p.off + p.bytes.length ≤ q.off
  | [], _, _ => List.Pairwise.nil
  | p :: ps, off, h => by
    refine List.Pairwise.cons (fun q hq => ?_) h.2.disjoint
    rw [h.1]
    exact h.2.off_le q hq

theorem splice_splice {l a b : List UInt8} {off : ℕ} (h : off ≤ l.length) :
    splice (splice l off a) (off + a.length) b = splice l off (a ++ b) := by
  have hlen : (l.take off ++ a).length = off + a.length := by
    simp [Nat.min_eq_left h]
  unfold splice
  rw [List.take_left' hlen, ← hlen, List.drop_length_add_append, List.drop_drop, hlen,
    List.length_append, Nat.add_assoc]
  simp only [List.append_assoc]

theorem splice_nil (l : List UInt8) (off : ℕ) : splice l off [] = l := by
  simp [splice]

variable [Fintype κ]

/-- **The pieces tile the file** from offset `off` on, over the text `l` that was there:
they follow each other, the offset is behind them, the file has their texts in the order in
which they were written, and the pieces of each call make up the part of its source that it
has written. -/
structure Tiled (f : Fin NFILE) (calls : κ → Writer) (s : State) (T : Sharing κ) : Prop where
  inum : fileInum T.fs f = fileInum s f
  consecutive : Consecutive (s.ftable f).off T.pieces
  disjoint : T.pieces.Pairwise fun p q => p.off + p.bytes.length ≤ q.off
  off : (T.fs.ftable f).off = (s.ftable f).off + ∑ k, (T.calls k).i
  text : fileText T.fs f = splice (fileText s f) (s.ftable f).off (texts T.pieces)
  order : ∀ k, texts (T.pieces.filter fun p => p.call = k) =
    (List.range (T.calls k).i).map (calls k).src
  within : ∀ k, (T.calls k).i ≤ (calls k).n

/-- What every step keeps. -/
structure SharedInv (sb : Superblock) (f : Fin NFILE) (calls : κ → Writer) (s : State)
    (T : Sharing κ) : Prop where
  settled : Settled sb True .off 0 0 T.fs
  type : (T.fs.ftable f).type = .inode
  same : ∀ k, (T.calls k).src = (calls k).src ∧ (T.calls k).n = (calls k).n
  start : T.pieces ≠ [] → (s.ftable f).off ≤ (fileText s f).length
  total : (texts T.pieces).length = ∑ k, (T.calls k).i
  tiled : Tiled f calls s T

variable {calls : κ → Writer} {S T : Sharing κ}

omit [Fintype κ] in
/-- The bytes of a call, with its next piece. -/
theorem range_pieceBytes (src : ℕ → UInt8) (n i : ℕ) :
    (List.range i).map src ++ pieceBytes src n i =
      (List.range (i + min (n - i) maxWrite)).map src := by
  rw [List.range_add, List.map_append, List.map_map]
  rfl

/-- One call has come further. -/
theorem sum_advance (c : κ → Writer) (k : κ) (m : ℕ) :
    ∑ q, (update c k { c k with i := (c k).i + m } q).i = ∑ q, (c q).i + m := by
  have hq : ∀ q, (update c k { c k with i := (c k).i + m } q).i =
      (c q).i + if q = k then m else 0 := by
    intro q
    by_cases h : q = k
    · rw [h, update_self, if_pos rfl]
    · rw [update_of_ne h, if_neg h, Nat.add_zero]
  rw [Finset.sum_congr rfl fun q _ => hq q, Finset.sum_add_distrib]
  simp

/-- **A piece keeps the tiling.** -/
theorem SharedInv.piece (h : SharedInv sb f calls s S) {k : κ}
    (hi : (S.calls k).i < (S.calls k).n) (ht : Settled sb True .off 0 0 t)
    (happ : Appended f (pieceBytes (S.calls k).src (S.calls k).n (S.calls k).i) S.fs t) :
    SharedInv sb f calls s (S.advance f k t) := by
  have hoff := h.tiled.off
  have hlen : (pieceBytes (S.calls k).src (S.calls k).n (S.calls k).i).length =
      min ((S.calls k).n - (S.calls k).i) maxWrite := by simp [pieceBytes]
  have hstart : (s.ftable f).off ≤ (fileText s f).length := by
    by_cases hnil : S.pieces = []
    · -- the first piece: nothing has moved yet
      have htext := h.tiled.text
      have htotal := h.total
      have hle := happ.le
      rw [hnil] at htext htotal
      rw [show texts ([] : List (Piece κ)) = [] from rfl, splice_nil] at htext
      rw [htext] at hle
      omega
    · exact h.start hnil
  have hcons : Consecutive (s.ftable f).off (S.advance f k t).pieces :=
    h.tiled.consecutive.append (by rw [h.total]; exact hoff)
  have htexts : texts (S.advance f k t).pieces =
      texts S.pieces ++ pieceBytes (S.calls k).src (S.calls k).n (S.calls k).i := by
    simp [texts, Sharing.advance]
  have hsum : ∑ q, ((S.advance f k t).calls q).i =
      ∑ q, (S.calls q).i + min ((S.calls k).n - (S.calls k).i) maxWrite := sum_advance _ _ _
  have hself : (S.advance f k t).calls k = { S.calls k with
      i := (S.calls k).i + min ((S.calls k).n - (S.calls k).i) maxWrite } :=
    update_self _ _ _
  have hother : ∀ q, q ≠ k → (S.advance f k t).calls q = S.calls q :=
    fun q hq => update_of_ne hq _ _
  refine ⟨ht, happ.type.trans h.type, fun q => ?_, fun _ => hstart, ?_,
    ⟨happ.inum.trans h.tiled.inum, hcons, hcons.disjoint, ?_, ?_, fun q => ?_, fun q => ?_⟩⟩
  · by_cases hq : q = k
    · subst hq
      rw [hself]
      exact h.same q
    · rw [hother q hq]
      exact h.same q
  · rw [htexts, List.length_append, h.total, hlen, hsum]
  · rw [hsum, ← Nat.add_assoc, ← hoff, ← hlen]
    exact happ.off
  · rw [htexts, ← splice_splice hstart, ← h.tiled.text, h.total, ← hoff]
    exact happ.text
  · have horder := h.tiled.order q
    by_cases hq : q = k
    · subst hq
      rw [← (h.same q).1] at horder ⊢
      rw [hself, ← range_pieceBytes, ← horder]
      simp [texts, Sharing.advance]
    · have hne : ¬ k = q := fun heq => hq heq.symm
      rw [hother q hq, ← horder]
      simp [texts, Sharing.advance, hne]
  · by_cases hq : q = k
    · subst hq
      have hn := (h.same q).2
      rw [hself, ← hn]
      simp only
      omega
    · rw [hother q hq]
      exact h.tiled.within q

theorem SharedInv.other (h : SharedInv sb f calls s S) (ht : Settled sb True .off 0 0 t)
    (hsame : Undisturbed f S.fs t) : SharedInv sb f calls s { S with fs := t } := by
  obtain ⟨htype, hinum, hoff, htext⟩ := hsame
  exact ⟨ht, htype.trans h.type, h.same, h.start, h.total,
    ⟨hinum.trans h.tiled.inum, h.tiled.consecutive, h.tiled.disjoint, hoff.trans h.tiled.off,
      htext.trans h.tiled.text, h.tiled.order, h.tiled.within⟩⟩

theorem shareStep_inv {a : ShareAct κ} (h : SharedInv sb f calls s S)
    (hstep : shareStep sb f S a = some T) : SharedInv sb f calls s T := by
  cases a with
  | piece k =>
    simp only [shareStep] at hstep
    split_ifs at hstep with hi
    have hends := writePiece_ends (S.calls k).src h.settled h.type hi
    split at hstep
    · rename_i r t hrun
      rw [hrun] at hends
      obtain ⟨ht, happ⟩ := hends
      split_ifs at hstep with hr
      simp only [Option.some.injEq] at hstep
      rw [← hstep]
      exact h.piece hi ht (happ hr)
    · cases hstep
  | other op =>
    simp only [shareStep] at hstep
    split at hstep
    · rename_i t hrun
      split_ifs at hstep with hsame
      simp only [Option.some.injEq] at hstep
      rw [← hstep]
      exact h.other (opStep_settled h.settled hrun) hsame
    · cases hstep

/-- **Writes through a shared offset are never lost.**  In every interleaving of calls of
`filewrite` on one open file, the pieces tile the file from the first offset on; when all
calls have finished, the offset has moved by the sum of their lengths. -/
theorem shared_writes_tile {D : ℕ → Dinode} {bm : ℕ → Bool} {blk : ℕ → ℕ → UInt8}
    (himage : Image sb D bm blk) {ops : List Op} (hs : run (opStep sb) (boot D bm blk) ops = some s)
    (hopen : (s.ftable f).type = .inode) (hnew : ∀ k, (calls k).i = 0) (acts : List (ShareAct κ)) :
    Always (shareStep sb f) (fun T => Tiled f calls s T ∧ ((∀ k, (T.calls k).i = (calls k).n) →
        (T.fs.ftable f).off = (s.ftable f).off + ∑ k, (calls k).n)) ⟨s, calls, []⟩ acts := by
  have hsettled : Settled sb True .off 0 0 s :=
    run_invariant (fun s op t h hstep => opStep_settled h hstep) ops _ _ himage.boot hs
  have hzero : ∑ k, (calls k).i = 0 := Finset.sum_eq_zero fun k _ => hnew k
  refine always_of_step (fun S a T h hstep => shareStep_inv h hstep) (fun T h => ?_) acts _
    ⟨hsettled, hopen, fun _ => ⟨rfl, rfl⟩, fun h => absurd rfl h, by simp [texts, hzero],
      ⟨rfl, trivial, List.Pairwise.nil, by simp [hzero], (splice_nil _ _).symm, fun k => ?_,
        fun k => ?_⟩⟩
  · refine ⟨h.tiled, fun hall => ?_⟩
    rw [h.tiled.off, Finset.sum_congr rfl fun k _ => hall k]
  · simp [texts, hnew k]
  · simp [hnew k]

def firstFile : Fin NFILE := ⟨0, by decide⟩

/-- Two calls write to a file that has just been created. -/
theorem shared_writes_tile_pair : ∃ s : State,
    run (opStep rootSb) (boot rootDinode rootBitmap rootBlock)
      [.call initproc (.open (some [102]) (O_CREATE ||| O_RDWR))] = some s ∧
    Always (shareStep rootSb firstFile) (fun T =>
      Tiled firstFile (fun b : Bool => ⟨fun _ => if b then 1 else 2, 3, 0⟩) s T ∧
      ((∀ b, (T.calls b).i = 3) →
        (T.fs.ftable firstFile).off = (s.ftable firstFile).off + ∑ _b : Bool, 3))
      ⟨s, fun b => ⟨fun _ => if b then 1 else 2, 3, 0⟩, []⟩
      [.piece true, .piece false, .other (.call initproc (.dup 0))] := by
  have hrun : (run (opStep rootSb) (boot rootDinode rootBitmap rootBlock)
      [.call initproc (.open (some [102]) (O_CREATE ||| O_RDWR))]).map
        (fun s => (s.ftable firstFile).type) = some .inode := by
    decide +kernel
  obtain ⟨s, hs, hopen⟩ := Option.map_eq_some_iff.mp hrun
  exact ⟨s, hs, shared_writes_tile rootImage hs hopen (fun _ => rfl) _⟩

end Fs
