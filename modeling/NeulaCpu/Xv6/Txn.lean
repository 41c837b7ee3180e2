import NeulaCpu.Xv6.FsDisk

/-!
# Writing inside a transaction

`balloc`, `bmap`, `iupdate` and `writei` of `fs.c` and `filewrite` of `file.c` with their calls of
`log_write`. The state is the blocks as the buffer cache shows them, and the numbers of the blocks
for which `log_write` was called in this transaction. A buffer that is changed and released without
a call of `log_write` has changed the cache only. Seen without the calls, these are the functions of
`FsDisk`.
-/

namespace NeulaCpu.Xv6

open ByteStore Outcome

/-- The blocks in the cache, and the calls of `log_write` since `begin_op`. -/
structure Txn where
  disk : Disk
  calls : List ℕ

abbrev TxnM := StateT Txn (Except FsPanic)

namespace Txn

/-- `log_write` of the buffer of block `b`. -/
def logWrite (b : ℕ) : TxnM Unit := modify fun s => { s with calls := s.calls ++ [b] }

/-- A change of buffers. -/
def change (f : Disk → Disk) : TxnM Unit := modify fun s => { s with disk := f s.disk }

def bzero (b : ℕ) : TxnM Unit := do
  change fun d => Function.update d b fun _ => 0
  logWrite b

section Blocks

variable (sb : Superblock)

def balloc : TxnM ℕ := do
  let s ← get
  match (List.range sb.size).find? fun b => !bitAt sb s.disk b with
  | some b =>
    change fun d => setBitAt sb d b true
    logWrite (bBlock sb b)
    bzero b
    pure b
  | none => pure 0

/-- The end of `bmap`, with the indirect block at hand. -/
def bmapEntry (ind bn : ℕ) : TxnM ℕ := do
  let s ← get
  if entryAt (s.disk ind) bn = 0 then
    let addr ← balloc sb
    if addr = 0 then pure 0
    else
      change fun d => Function.update d ind (setEntryAt (d ind) bn addr)
      logWrite ind
      pure addr
  else pure (entryAt (s.disk ind) bn)

def bmap (ip : Dinode) (bn : ℕ) : TxnM (ℕ × Dinode) :=
  if bn < nDirect then
    if ip.addr bn = 0 then do
      let addr ← balloc sb
      if addr = 0 then pure (0, ip) else pure (addr, ip.setAddr bn addr)
    else pure (ip.addr bn, ip)
  else if bn - nDirect < nIndirect then
    if ip.addr nDirect = 0 then do
      let ind ← balloc sb
      if ind = 0 then pure (0, ip)
      else
        let addr ← bmapEntry sb ind (bn - nDirect)
        pure (addr, ip.setAddr nDirect ind)
    else do
      let addr ← bmapEntry sb (ip.addr nDirect) (bn - nDirect)
      pure (addr, ip)
  else throw .bmapOutOfRange

def iupdate (inum : ℕ) (ip : Dinode) : TxnM Unit := do
  change fun d => setDinode sb d inum ip
  logWrite (iBlock sb inum)

/-- The loop of `writei`; the block is logged only if the whole copy succeeded. -/
def writeLoop (src : Source) : ℕ → Dinode → ℕ → ℕ → ℕ → TxnM (ℕ × ℕ × Dinode)
  | 0, ip, off, tot, _ => pure (off, tot, ip)
  | fuel + 1, ip, off, tot, n =>
    if tot < n then do
      let (addr, ip) ← bmap sb ip (off / bSize)
      if addr = 0 then pure (off, tot, ip)
      else
        let m := min (n - tot) (bSize - off % bSize)
        change fun d => Function.update d addr (put (d addr) (off % bSize) (copyIn src tot m).1)
        if (copyIn src tot m).2 then
          logWrite addr
          writeLoop src fuel ip (off + m) (tot + m) n
        else pure (off, tot, ip)
    else pure (off, tot, ip)

def writei (inum : ℕ) (ip : Dinode) (src : Source) (off n : ℕ) : TxnM (ℤ × Dinode) :=
  if ip.size.toNat < off ∨ (off + n) % 2 ^ 32 < off then pure (-1, ip)
  else if maxFile * bSize < (off + n) % 2 ^ 32 then pure (-1, ip)
  else do
    let (off, tot, ip) ← writeLoop sb src n ip off 0 n
    let ip := if ip.size.toNat < off then { ip with size := BitVec.ofNat 32 off } else ip
    iupdate sb inum ip
    pure (tot, ip)

end Blocks

/-! ## `filewrite` -/

/-- `max` of `filewrite`: what a transaction writes at most. -/
def maxChunk : ℕ := (maxOpBlocks - 1 - 1 - 2) / 2 * bSize

/-- What `filewrite` leaves: the offset of the file, the inode, and the calls of `log_write` between
each `begin_op` and its `end_op`. -/
structure FileWrite where
  off : ℕ
  ip : Dinode
  txns : List (List ℕ)

section Filewrite

variable (sb : Superblock)

/-- What other processes do to the blocks and to the inode before the `ilock` of transaction `k`. -/
abbrev Others := ℕ → Disk × Dinode → Disk × Dinode

/-- The loop of `filewrite` with `i` of `n` bytes written; the result has the number of bytes
written. -/
def filewriteLoop (others : Others) (inum : ℕ) (src : Source) (n : ℕ) :
    ℕ → ℕ → ℕ → FileWrite → DiskM (ℕ × FileWrite)
  | 0, _, i, f => pure (i, f)
  | fuel + 1, k, i, f =>
    if i < n then do
      let n1 := min (n - i) maxChunk
      let d ← get
      -- begin_op, ilock
      let (d, ip) := others k (d, f.ip)
      match writei sb inum ip (fun j => src (i + j)) f.off n1 ⟨d, []⟩ with
      | .error e => throw e
      | .ok ((r, ip), t) =>
        set t.disk
        let f := ⟨if 0 < r then f.off + r.toNat else f.off, ip, f.txns ++ [t.calls]⟩
        -- iunlock, end_op
        if r ≠ n1 then pure (i, f) else filewriteLoop others inum src n fuel (k + 1) (i + n1) f
    else pure (i, f)

/-- `filewrite` to the inode of a file. -/
def filewrite (others : Others) (inum : ℕ) (ip : Dinode) (src : Source) (writable : Bool) (off : ℕ)
    (n : ℤ) : DiskM (ℤ × FileWrite) :=
  if !writable then pure (-1, ⟨off, ip, []⟩)
  else do
    let (i, f) ← filewriteLoop sb others inum src n.toNat n.toNat 0 0 ⟨off, ip, []⟩
    pure (if (i : ℤ) = n then n else -1, f)

end Filewrite

/-! ## Without the calls -/

section Projects

variable (sb : Superblock)

theorem projects_logWrite (b : ℕ) : Projects Txn.disk (logWrite b) (pure ⟨⟩) := fun _ => rfl

theorem projects_change (f : Disk → Disk) : Projects Txn.disk (change f) (modify f) :=
  .modify fun _ => rfl

/-- The two changes of `balloc` are one. -/
theorem projects_balloc : Projects Txn.disk (balloc sb) (Xv6.balloc sb) := by
  intro s
  rw [balloc, Xv6.balloc]
  show Except.map _ ((match (List.range sb.size).find? fun b => !bitAt sb s.disk b with
      | some b => _ | none => _ : TxnM ℕ) s) =
    (match (List.range sb.size).find? fun b => !bitAt sb s.disk b with
      | some b => _ | none => _ : DiskM ℕ) s.disk
  cases (List.range sb.size).find? fun b => !bitAt sb s.disk b with
  | none => rfl
  | some b => rfl

theorem projects_bmapEntry (ind bn : ℕ) :
    Projects Txn.disk (bmapEntry sb ind bn) (Xv6.bmapEntry sb ind bn) := by
  refine .get_bind fun s =>
    .ite (.bind (projects_balloc sb) fun addr => .ite (.pure 0) ?_) (.pure _)
  exact .bind (projects_change _) fun _ => .silent_bind (projects_logWrite ind) (.pure addr)

theorem projects_bmap (ip : Dinode) (bn : ℕ) :
    Projects Txn.disk (bmap sb ip bn) (Xv6.bmap sb ip bn) := by
  refine .ite (.ite (.bind (projects_balloc sb) fun addr => .ite (.pure _) (.pure _)) (.pure _))
    (.ite (.ite ?_ ?_) (.throw _))
  · exact .bind (projects_balloc sb) fun ind =>
      .ite (.pure _) (.bind (projects_bmapEntry sb ind _) fun _ => .pure _)
  · exact .bind (projects_bmapEntry sb _ _) fun _ => .pure _

theorem projects_writeLoop (src : Source) (n fuel : ℕ) :
    ∀ (ip : Dinode) (off tot : ℕ), Projects Txn.disk (writeLoop sb src fuel ip off tot n)
      (Xv6.writeLoop sb src fuel ip off tot n) := by
  induction fuel with
  | zero => exact fun ip off tot => .pure _
  | succ fuel ih =>
    intro ip off tot
    refine .ite (.bind (projects_bmap sb ip _) fun r =>
      .ite (.pure _) (.bind (projects_change _) fun _ => ?_)) (.pure _)
    exact .ite (.silent_bind (projects_logWrite _) (ih _ _ _)) (.pure _)

end Projects

end Txn

end NeulaCpu.Xv6
