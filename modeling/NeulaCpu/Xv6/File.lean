import NeulaCpu.Lib.Trace
import NeulaCpu.Xv6.Fs
import NeulaCpu.Xv6.Pipe
import NeulaCpu.Xv6.Proc

/-!
# Open files

The file table of `file.c`, `pipealloc` and `pipeclose` of `pipe.c`, the system calls of `sysfile.c`
that open and close files or change the file system, and what `fork` and `exit` do to the files of a
process. A call is carried out as a whole.

A `struct pipe` is named by the number of its allocation, whatever page it is in; `frees` is a
history of the calls of `kfree`. What `argstr`, `kalloc` and `copyout` return, and whether
`allocproc` and `uvmcopy` find memory, are inputs of the call. Of a process there are its
descriptors, its current directory, and whether its slot is free. Any process may collect a zombie.
-/

namespace NeulaCpu.Xv6

open ByteStore Outcome Function

/-- `NFILE`. -/
def nFile : ℕ := 100

/-- `NOFILE`. -/
def nOFile : ℕ := 16

/-- `NDEV`. -/
def nDev : ℕ := 10

inductive FdType
  | none | pipe | inode | device
deriving DecidableEq, Repr

/-- `struct file`. -/
structure File where
  type : FdType
  ref : BitVec 32
  readable : Bool
  writable : Bool
  pipe : ℕ
  ip : ℕ
  off : BitVec 32
  major : BitVec 16
deriving DecidableEq, Repr

inductive KernelPanic
  | fs (e : FsPanic)
  | filedup
  | fileclose
  | initExiting
  /-- Not a panic of the source: a pipe is used after its page was freed. -/
  | freedPipe
  /-- Not a panic of the source: `p->cwd` is null. -/
  | noCwd
deriving DecidableEq, Repr

structure Kernel where
  fs : Fs
  file : Fin nFile → File
  /-- The pipes that are allocated. -/
  pipes : ℕ → Option Pipe
  npipe : ℕ
  frees : ℕ → ℕ
  state : Fin nProc → ProcState
  ofile : Fin nProc × Fin nOFile → Option (Fin nFile)
  cwd : Fin nProc → Option ℕ

abbrev KernelM := StateT Kernel (Except KernelPanic)

namespace Kernel

/-- The state after `userinit`: only the first process, in the root directory. -/
def init (disk : Disk) : Kernel where
  fs := ⟨disk, fun i => if i = rootIno then ⟨1, false, .zero⟩ else ⟨0, false, .zero⟩, 1⟩
  file _ := ⟨.none, 0, false, false, 0, 0, 0, 0⟩
  pipes _ := none
  npipe := 0
  frees _ := 0
  state p := if p = initproc then .runnable else .unused
  ofile _ := none
  cwd p := if p = initproc then some rootIno else none

def setFile (s : Kernel) (f : Fin nFile) (x : File) : Kernel := { s with file := update s.file f x }

def setOfile (s : Kernel) (p : Fin nProc) (fd : Fin nOFile) (f : Option (Fin nFile)) : Kernel :=
  { s with ofile := update s.ofile (p, fd) f }

def setCwd (s : Kernel) (p : Fin nProc) (ip : Option ℕ) : Kernel :=
  { s with cwd := update s.cwd p ip }

def setState (s : Kernel) (p : Fin nProc) (st : ProcState) : Kernel :=
  { s with state := update s.state p st }

def setPipe (s : Kernel) (n : ℕ) (pi : Option Pipe) : Kernel :=
  { s with pipes := update s.pipes n pi }

def onFs {α : Type} (c : FsM α) : KernelM α := embed Kernel.fs (fun t s => { s with fs := t }) .fs c

/-! ## `file.c` and `pipe.c` -/

def filealloc : KernelM (Option (Fin nFile)) := do
  let s ← get
  match (List.finRange nFile).find? fun f => (s.file f).ref == 0 with
  | some f =>
    set (s.setFile f { s.file f with ref := 1 })
    pure (some f)
  | none => pure none

def filedup (f : Fin nFile) : KernelM Unit := do
  let s ← get
  if (s.file f).ref.toInt < 1 then throw .filedup
  else set (s.setFile f { s.file f with ref := (s.file f).ref + 1 })

/-- `kfree` of the page of a pipe. -/
def kfreePipe (n : ℕ) : KernelM Unit :=
  modify fun s => { s.setPipe n none with frees := update s.frees n (s.frees n + 1) }

def pipeclose (n : ℕ) (writable : Bool) : KernelM Unit := do
  let s ← get
  match s.pipes n with
  | none => throw .freedPipe
  | some pi =>
    set (s.setPipe n (some (pi.close writable)))
    if (pi.close writable).readopen = false ∧ (pi.close writable).writeopen = false then kfreePipe n
      else pure ()

section Fileclose

variable (sb : Superblock)

def fileclose (f : Fin nFile) : KernelM Unit := do
  let s ← get
  let ff := s.file f
  if ff.ref.toInt < 1 then throw .fileclose
  else if 0 < (ff.ref - 1).toInt then set (s.setFile f { ff with ref := ff.ref - 1 })
  else
    set (s.setFile f { ff with ref := 0, type := .none })
    match ff.type with
    | .pipe => pipeclose ff.pipe ff.writable
    | .inode | .device => onFs (Fs.iput sb ff.ip)
    | .none => pure ()

/-- A pipe that was just allocated. -/
def addPipe (s : Kernel) (junk : ℕ → Byte) : Kernel :=
  { s.setPipe s.npipe (some (.alloc junk)) with npipe := s.npipe + 1 }

/-- The file for an end of the pipe `n`. -/
def pipeFile (x : File) (n : ℕ) (writable : Bool) : File :=
  { x with type := .pipe, readable := !writable, writable := writable, pipe := n }

/-- The new pipe and its two files. -/
def pipeInit (s : Kernel) (f0 f1 : Fin nFile) (junk : ℕ → Byte) : Kernel :=
  let t := (s.addPipe junk).setFile f0 (pipeFile (s.file f0) s.npipe false)
  t.setFile f1 (pipeFile (t.file f1) s.npipe true)

/-- `pipealloc`; at `bad:` there is never a pipe to free. -/
def pipealloc (kalloc : Option (ℕ → Byte)) : KernelM (Option (Fin nFile × Fin nFile)) := do
  match ← filealloc with
  | none => pure none
  | some f0 =>
    match ← filealloc with
    | none =>
      fileclose sb f0
      pure none
    | some f1 =>
      match kalloc with
      | none =>
        fileclose sb f0
        fileclose sb f1
        pure none
      | some junk =>
        modify fun s => s.pipeInit f0 f1 junk
        pure (some (f0, f1))

end Fileclose

/-! ## `sysfile.c` -/

/-- `argfd`: the descriptor and the file. -/
def argfd (s : Kernel) (p : Fin nProc) (fd : BitVec 32) : Option (Fin nOFile × Fin nFile) :=
  if h : fd.toNat < nOFile then (s.ofile (p, ⟨fd.toNat, h⟩)).map fun f => (⟨fd.toNat, h⟩, f)
    else none

def fdalloc (p : Fin nProc) (f : Fin nFile) : KernelM (Option (Fin nOFile)) := do
  let s ← get
  match (List.finRange nOFile).find? fun fd => (s.ofile (p, fd)).isNone with
  | some fd =>
    set (s.setOfile p fd (some f))
    pure (some fd)
  | none => pure none

/-- The current directory of the caller. -/
def myCwd (p : Fin nProc) : KernelM ℕ := do
  let s ← get
  match s.cwd p with
  | some ip => pure ip
  | none => throw .noCwd

def sysDup (p : Fin nProc) (fd : BitVec 32) : KernelM ℤ := do
  let s ← get
  match s.argfd p fd with
  | none => pure (-1)
  | some (_, f) =>
    match ← fdalloc p f with
    | none => pure (-1)
    | some fd =>
      filedup f
      pure fd.val

section Calls

variable (sb : Superblock)

def sysClose (p : Fin nProc) (fd : BitVec 32) : KernelM ℤ := do
  let s ← get
  match s.argfd p fd with
  | none => pure (-1)
  | some (fd, f) =>
    set (s.setOfile p fd none)
    fileclose sb f
    pure 0

def oRdonly : BitVec 32 := 0x000

def oWronly : BitVec 32 := 0x001

def oRdwr : BitVec 32 := 0x002

def oCreate : BitVec 32 := 0x200

def oTrunc : BitVec 32 := 0x400

/-- A flag of `omode`. -/
def flag (omode bit : BitVec 32) : Bool := omode &&& bit != 0

/-- `sys_open` up to the check of directories: the inode, locked and with a reference. -/
def openInode (cwd : ℕ) (path : List Byte) (omode : BitVec 32) : FsM (Option ℕ) := do
  if flag omode oCreate then Fs.create sb cwd path tFile 0 0
  else
    match ← Fs.namei sb cwd path with
    | none => pure none
    | some ip =>
      Fs.ilock sb ip
      let c ← Fs.copy ip
      if c.type = tDir ∧ omode ≠ oRdonly then
        Fs.iput sb ip
        pure none
      else pure (some ip)

/-- The file that `sys_open` makes of the inode `ip`. -/
def openedFile (x : File) (ip : ℕ) (c : Dinode) (omode : BitVec 32) : File :=
  let x := if c.type = tDevice then { x with type := .device, major := c.major }
    else { x with type := .inode, off := 0 }
  { x with
    ip := ip
    readable := !flag omode oWronly
    writable := flag omode oWronly || flag omode oRdwr }

/-- `sys_open` from the check of devices on. -/
def openFile (p : Fin nProc) (ip : ℕ) (omode : BitVec 32) : KernelM ℤ := do
  let c ← onFs (Fs.copy ip)
  if c.type = tDevice ∧ (c.major.toInt < 0 ∨ nDev ≤ c.major.toInt) then
    onFs (Fs.iput sb ip)
    pure (-1)
  else
    match ← filealloc with
    | none =>
      onFs (Fs.iput sb ip)
      pure (-1)
    | some f =>
      match ← fdalloc p f with
      | none =>
        fileclose sb f
        onFs (Fs.iput sb ip)
        pure (-1)
      | some fd =>
        modify fun s => s.setFile f (openedFile (s.file f) ip c omode)
        if flag omode oTrunc ∧ c.type = tFile then
          onFs (Fs.itrunc sb ip)
          pure fd.val
        else pure fd.val

def sysOpen (p : Fin nProc) (path : Option (List Byte)) (omode : BitVec 32) : KernelM ℤ := do
  match path with
  | none => pure (-1)
  | some path =>
    let cwd ← myCwd p
    match ← onFs (openInode sb cwd path omode) with
    | none => pure (-1)
    | some ip => openFile sb p ip omode

/-- The end of `sys_pipe` after a failure: the two descriptors are given back. -/
def pipeBad (rf wf : Fin nFile) : KernelM ℤ := do
  fileclose sb rf
  fileclose sb wf
  pure (-1)

def sysPipe (p : Fin nProc) (kalloc : Option (ℕ → Byte)) (copyout₀ copyout₁ : Bool) :
    KernelM ℤ := do
  match ← pipealloc sb kalloc with
  | none => pure (-1)
  | some (rf, wf) =>
    match ← fdalloc p rf with
    | none => pipeBad sb rf wf
    | some fd0 =>
      match ← fdalloc p wf with
      | none =>
        modify fun s => s.setOfile p fd0 none
        pipeBad sb rf wf
      | some fd1 =>
        if copyout₀ && copyout₁ then pure 0
        else
          modify fun s => s.setOfile p fd0 none
          modify fun s => s.setOfile p fd1 none
          pipeBad sb rf wf

def sysChdir (p : Fin nProc) (path : Option (List Byte)) : KernelM ℤ := do
  match path with
  | none => pure (-1)
  | some path =>
    let cwd ← myCwd p
    match ← onFs (Fs.namei sb cwd path) with
    | none => pure (-1)
    | some ip =>
      onFs (Fs.ilock sb ip)
      let c ← onFs (Fs.copy ip)
      if c.type ≠ tDir then
        onFs (Fs.iput sb ip)
        pure (-1)
      else
        onFs (Fs.iput sb cwd)
        modify fun s => s.setCwd p (some ip)
        pure 0

/-- `sys_mkdir` and `sys_mknod`. -/
def sysCreate (p : Fin nProc) (path : Option (List Byte)) (type major minor : BitVec 16) :
    KernelM ℤ := do
  match path with
  | none => pure (-1)
  | some path =>
    let cwd ← myCwd p
    match ← onFs (Fs.create sb cwd path type major minor) with
    | none => pure (-1)
    | some ip =>
      onFs (Fs.iput sb ip)
      pure 0

def sysMkdir (p : Fin nProc) (path : Option (List Byte)) : KernelM ℤ := sysCreate sb p path tDir 0 0

/-- `sys_mknod`; the arguments are `int`s and the parameters of `create` are `short`s. -/
def sysMknod (p : Fin nProc) (path : Option (List Byte)) (major minor : BitVec 32) : KernelM ℤ :=
  sysCreate sb p path tDevice (major.setWidth 16) (minor.setWidth 16)

def sysLink (p : Fin nProc) (old new : Option (List Byte)) : KernelM ℤ := do
  match old, new with
  | some old, some new =>
    let cwd ← myCwd p
    onFs (Fs.link sb cwd old new)
  | _, _ => pure (-1)

def sysUnlink (p : Fin nProc) (path : Option (List Byte)) : KernelM ℤ := do
  match path with
  | none => pure (-1)
  | some path =>
    let cwd ← myCwd p
    onFs (Fs.unlink sb cwd path)

/-! ## `proc.c` -/

/-- The loop of `fork` over the descriptors. -/
def dupFiles (p np : Fin nProc) : List (Fin nOFile) → KernelM Unit
  | [] => pure ()
  | fd :: fds => do
    let s ← get
    match s.ofile (p, fd) with
    | none => dupFiles p np fds
    | some f =>
      filedup f
      modify fun s => s.setOfile np fd (some f)
      dupFiles p np fds

/-- `fork`: the slot of the child. `alloc` tells whether `allocproc` finds memory, and `copied` what
`uvmcopy` returns; after a failure the slot is free again. -/
def fork (p : Fin nProc) (alloc copied : Bool) : KernelM (Option (Fin nProc)) := do
  let s ← get
  match (List.finRange nProc).find? fun i => s.state i == .unused with
  | none => pure none
  | some np =>
    if alloc && copied then
      dupFiles p np (List.finRange nOFile)
      let cwd ← myCwd p
      onFs (Fs.idup cwd)
      modify fun s => (s.setCwd np (some cwd)).setState np .runnable
      pure (some np)
    else pure none

/-- The loop of `exit` over the descriptors. -/
def closeFiles (p : Fin nProc) : List (Fin nOFile) → KernelM Unit
  | [] => pure ()
  | fd :: fds => do
    let s ← get
    match s.ofile (p, fd) with
    | none => closeFiles p fds
    | some f =>
      fileclose sb f
      modify fun s => s.setOfile p fd none
      closeFiles p fds

def exit (p : Fin nProc) : KernelM Unit := do
  if p = initproc then throw .initExiting
  else
    closeFiles sb p (List.finRange nOFile)
    let cwd ← myCwd p
    onFs (Fs.iput sb cwd)
    modify fun s => (s.setCwd p none).setState p .zombie

end Calls

end Kernel

/-! ## Calls in sequence -/

inductive Syscall
  | open (path : Option (List Byte)) (omode : BitVec 32)
  | dup (fd : BitVec 32)
  | close (fd : BitVec 32)
  | pipe (kalloc : Option (ℕ → Byte)) (copyout₀ copyout₁ : Bool)
  | fork (alloc copied : Bool)
  | exit
  | chdir (path : Option (List Byte))
  | mkdir (path : Option (List Byte))
  | mknod (path : Option (List Byte)) (major minor : BitVec 32)
  | link (old new : Option (List Byte))
  | unlink (path : Option (List Byte))

/-- The code of a call of process `p`. -/
def Syscall.command (sb : Superblock) (p : Fin nProc) : Syscall → KernelM Unit
  | .open path omode => discard (Kernel.sysOpen sb p path omode)
  | .dup fd => discard (Kernel.sysDup p fd)
  | .close fd => discard (Kernel.sysClose sb p fd)
  | .pipe kalloc copyout₀ copyout₁ => discard (Kernel.sysPipe sb p kalloc copyout₀ copyout₁)
  | .fork alloc copied => discard (Kernel.fork p alloc copied)
  | .exit => Kernel.exit sb p
  | .chdir path => discard (Kernel.sysChdir sb p path)
  | .mkdir path => discard (Kernel.sysMkdir sb p path)
  | .mknod path major minor => discard (Kernel.sysMknod sb p path major minor)
  | .link old new => discard (Kernel.sysLink sb p old new)
  | .unlink path => discard (Kernel.sysUnlink sb p path)

inductive KernelEvent
  | call (p : Fin nProc) (c : Syscall)
  /-- `wait` collects the zombie `p`; `freeproc` leaves the descriptors and the current
  directory. -/
  | freeproc (p : Fin nProc)

namespace Kernel

/-- A process that makes system calls. -/
def Live (s : Kernel) (p : Fin nProc) : Prop := s.state p ≠ .unused ∧ s.state p ≠ .zombie

instance (s : Kernel) (p : Fin nProc) : Decidable (s.Live p) := inferInstanceAs (Decidable (_ ∧ _))

/-- The state after an event; none after a panic. -/
def step (sb : Superblock) (s : Kernel) : KernelEvent → Option Kernel
  | .call p c =>
    if s.Live p then
      match c.command sb p s with
      | .ok (_, t) => some t
      | .error _ => none
    else none
  | .freeproc p => if s.state p = .zombie then some (s.setState p .unused) else none

/-- The panic in which a call ends, if any. -/
def panicOf (sb : Superblock) (s : Kernel) (p : Fin nProc) (c : Syscall) : Option KernelPanic :=
  match c.command sb p s with
  | .ok _ => none
  | .error e => some e

end Kernel

end NeulaCpu.Xv6
