import Xv6.Fs.Namex
import Xv6.Lib.Transition

/-!
# Open files and processes (project3/file.c, sysfile.c, proc.c)

The system calls that hold references to inodes. Pipes are left out, and of a process only its
files and its directory are there.
-/

namespace Xv6.Fs
open Transition

/-- Open files per system, open files per process, processes (param.h). -/
def NFILE : Nat := 100
def NOFILE : Nat := 16
def NPROC : Nat := 64

instance : NeZero NPROC := ⟨Nat.succ_ne_zero 63⟩
instance : NeZero NFILE := ⟨Nat.succ_ne_zero 99⟩

inductive FileType where
  | none
  | inode
  deriving DecidableEq

structure File where
  type : FileType
  ref : Nat
  readable : Bool
  writable : Bool
  ip : CacheSlot
  off : BitVec 32

/-- `live` stands for SLEEPING, RUNNABLE and RUNNING. -/
inductive Procstate where
  | unused
  | live
  | zombie
  deriving DecidableEq

structure Proc where
  state : Procstate
  ofile : Fin NOFILE → Option (Fin NFILE)
  cwd : Option CacheSlot

structure Sys where
  kernel : Kernel
  file : Fin NFILE → File
  proc : Fin NPROC → Proc

abbrev Syscall (α : Type) := Code Stop Sys α

namespace Sys

def setFile (s : Sys) (f : Fin NFILE) (r : File) : Sys :=
  { s with file := Function.update s.file f r }

def setProc (s : Sys) (p : Fin NPROC) (r : Proc) : Sys :=
  { s with proc := Function.update s.proc p r }

@[simp] theorem setFile_self (s : Sys) (f : Fin NFILE) (r : File) :
    (s.setFile f r).file f = r := Function.update_self ..

@[simp] theorem setProc_self (s : Sys) (p : Fin NPROC) (r : Proc) :
    (s.setProc p r).proc p = r := Function.update_self ..

theorem setProc_ne (s : Sys) {p q : Fin NPROC} (r : Proc) (h : q ≠ p) :
    (s.setProc p r).proc q = s.proc q := Function.update_of_ne h ..

def setOfile (s : Sys) (p : Fin NPROC) (fd : Fin NOFILE) (f : Option (Fin NFILE)) : Sys :=
  s.setProc p { s.proc p with ofile := Function.update (s.proc p).ofile fd f }

end Sys

namespace Syscall

variable (sb : Superblock) (devsw : Fin NDEV → Devsw)

def panic {α : Type} (e : Panic) : Syscall α := Code.fail (.panic e)

/-- Runs a call on the inode cache. -/
def kernel {α : Type} (p : Call α) : Syscall α :=
  Code.lift Sys.kernel (fun s k => { s with kernel := k }) p

/-! ### file.c -/

/-- A file that nobody uses is taken; its other fields stay. -/
def filealloc : Syscall (Option (Fin NFILE)) := fun s =>
  match (List.finRange NFILE).find? fun f => (s.file f).ref = 0 with
  | none => .ok (none, s)
  | some f => .ok (some f, s.setFile f { s.file f with ref := 1 })

def filedup (f : Fin NFILE) : Syscall Unit := fun s =>
  if (s.file f).ref < 1 then .error (.panic .filedup)
  else .ok ((), s.setFile f { s.file f with ref := (s.file f).ref + 1 })

/-- The inode to put, when the last reference has gone. -/
def filedrop (f : Fin NFILE) : Syscall (Option CacheSlot) := fun s =>
  if (s.file f).ref < 1 then .error (.panic .fileclose)
  else if 1 < (s.file f).ref then
    .ok (none, s.setFile f { s.file f with ref := (s.file f).ref - 1 })
  else .ok (if (s.file f).type = .inode then some (s.file f).ip else none,
    s.setFile f { s.file f with ref := 0, type := .none })

def fileclose (f : Fin NFILE) : Syscall Unit := do
  match ← filedrop f with
  | none => pure ()
  | some ip => kernel (Call.iput sb ip)

/-! ### sysfile.c -/

def argfd (cur : Fin NPROC) (fd : Int) (s : Sys) : Option (Fin NOFILE × Fin NFILE) :=
  if h : 0 ≤ fd ∧ fd.toNat < NOFILE then
    ((s.proc cur).ofile ⟨fd.toNat, h.2⟩).map fun f => (⟨fd.toNat, h.2⟩, f)
  else none

def fdalloc (cur : Fin NPROC) (f : Fin NFILE) : Syscall (Option (Fin NOFILE)) := fun s =>
  match (List.finRange NOFILE).find? fun fd => (s.proc cur).ofile fd = none with
  | none => .ok (none, s)
  | some fd => .ok (some fd, s.setOfile cur fd (some f))

def setInodeFile (f : Fin NFILE) (ip : CacheSlot) (omode : Nat) : Syscall Unit := fun s =>
  .ok ((), s.setFile f { s.file f with
    type := .inode, ip := ip, off := 0, readable := omode &&& O_WRONLY = 0,
    writable := omode &&& O_WRONLY ≠ 0 ∨ omode &&& O_RDWR ≠ 0 })

/-- `sys_open` and `sys_lsopen` from `filealloc` on. -/
def openFile (cur : Fin NPROC) (ip : CacheSlot) (omode : Nat) : Syscall Int := do
  match ← filealloc with
  | none => do
    kernel (Call.iunlockput sb ip)
    pure (-1)
  | some f => do
    match ← fdalloc cur f with
    | none => do
      fileclose sb f
      kernel (Call.iunlockput sb ip)
      pure (-1)
    | some fd => do
      kernel (Call.iunlock ip)
      setInodeFile f ip omode
      pure fd.val

/-- The directory of the process; the calls are those of processes that have one. -/
def cwd (cur : Fin NPROC) (s : Sys) : CacheSlot := (s.proc cur).cwd.getD 0

/-- A call on the inode cache, by the process `cur`. -/
def inside {α : Type} (cur : Fin NPROC) (p : CacheSlot → Call α) : Syscall α := fun s =>
  kernel (p (cwd cur s)) s

def sysOpen (turns : Nat) (cur : Fin NPROC) (path : List Byte) (omode : Nat) : Syscall Int := do
  match ← inside cur fun cwd => Call.openInode sb devsw turns cwd path omode with
  | none => pure (-1)
  | some ip => openFile sb cur ip omode

def sysLsopen (cur : Fin NPROC) (path : List Byte) (omode : Nat) : Syscall Int := do
  match ← inside cur fun cwd => Call.lsopenInode sb devsw cwd path omode with
  | none => pure (-1)
  | some ip => openFile sb cur ip omode

def sysClose (cur : Fin NPROC) (fd : Int) : Syscall Int := fun s =>
  match argfd cur fd s with
  | none => .ok (-1, s)
  | some (fd, f) =>
    match fileclose sb f (s.setOfile cur fd none) with
    | .ok (_, t) => .ok (0, t)
    | .error e => .error e

/-- `sys_dup` after `argfd`. -/
def dupFile (cur : Fin NPROC) (f : Fin NFILE) : Syscall Int := do
  match ← fdalloc cur f with
  | none => pure (-1)
  | some fd => do
    filedup f
    pure fd.val

def sysDup (cur : Fin NPROC) (fd : Int) : Syscall Int := fun s =>
  match argfd cur fd s with
  | none => .ok (-1, s)
  | some (_, f) => dupFile cur f s

def setCwd (cur : Fin NPROC) (ip : CacheSlot) : Syscall Unit := fun s =>
  .ok ((), s.setProc cur { s.proc cur with cwd := some ip })

def sysChdir (cur : Fin NPROC) (path : List Byte) : Syscall Int := do
  match ← inside cur fun cwd => Call.chdirInode sb devsw cwd path with
  | none => pure (-1)
  | some ip => do
    setCwd cur ip
    pure 0

/-! ### proc.c -/

/-- The files of the parent are taken over one by one. -/
def dupFiles (cur np : Fin NPROC) : List (Fin NOFILE) → Syscall Unit
  | [] => pure ()
  | fd :: fds => do
    let s ← Code.get
    match (s.proc cur).ofile fd with
    | none => dupFiles cur np fds
    | some f => do
      filedup f
      Code.modify fun s => s.setOfile np fd (some f)
      dupFiles cur np fds

def startChild (np : Fin NPROC) (ip : CacheSlot) : Syscall Unit := fun s =>
  .ok ((), s.setProc np { s.proc np with cwd := some ip, state := .live })

/-- The part of `fork` behind `copyuvm`, with the files and the directory. -/
def forkInto (cur np : Fin NPROC) (ip : CacheSlot) : Syscall Int := do
  dupFiles cur np (List.finRange NOFILE)
  kernel (Call.idup ip)
  startChild np ip
  pure 1

/-- `mem` says that there is memory for the child. -/
def fork (mem : Bool) (cur : Fin NPROC) : Syscall Int := fun s =>
  match (List.finRange NPROC).find? fun p => (s.proc p).state = .unused with
  | none => .ok (-1, s)
  | some np => if mem then forkInto cur np (cwd cur s) s else .ok (-1, s)

/-- Close all open files. -/
def closeFiles (cur : Fin NPROC) : List (Fin NOFILE) → Syscall Unit
  | [] => pure ()
  | fd :: fds => do
    let s ← Code.get
    match (s.proc cur).ofile fd with
    | none => closeFiles cur fds
    | some f => do
      fileclose sb f
      Code.modify fun s => s.setOfile cur fd none
      closeFiles cur fds

def endProc (cur : Fin NPROC) : Syscall Unit := fun s =>
  .ok ((), s.setProc cur { s.proc cur with cwd := none, state := .zombie })

def leave (cur : Fin NPROC) (ip : CacheSlot) : Syscall Unit := do
  closeFiles sb cur (List.finRange NOFILE)
  kernel (Call.iput sb ip)
  endProc cur

/-- Process 0 is `initproc`. -/
def exit (cur : Fin NPROC) : Syscall Unit := fun s =>
  if cur = 0 then .error (.panic .initExiting) else leave sb cur (cwd cur s) s

/-- `wait` finds the zombie `p`. -/
def reap (p : Fin NPROC) : Syscall Unit := fun s =>
  if (s.proc p).state = .zombie then .ok ((), s.setProc p { s.proc p with state := .unused })
  else .ok ((), s)

end Syscall

inductive SysAction where
  | open (path : List Byte) (omode turns : Nat)
  | lsopen (path : List Byte) (omode : Nat)
  | close (fd : Int)
  | dup (fd : Int)
  | fork (mem : Bool)
  | exit
  | reap (p : Fin NPROC)
  | chdir (path : List Byte)
  | link (old new : List Byte)
  | slink (old new : List Byte)
  | unlink (path : List Byte)
  | mkdir (path : List Byte)
  | mknod (path : List Byte) (major minor : BitVec 16)

namespace SysAction

variable (sb : Superblock) (devsw : Fin NDEV → Devsw)

open Syscall

/-- The state after the call, if it has returned. -/
def after {α : Type} (p : Syscall α) (s : Sys) : Option Sys :=
  match p s with
  | .ok (_, t) => some t
  | .error _ => none

/-- A whole system call of the process `cur`. -/
def perform (cur : Fin NPROC) : SysAction → Sys → Option Sys
  | .open path omode turns => after (sysOpen sb devsw turns cur path omode)
  | .lsopen path omode => after (sysLsopen sb devsw cur path omode)
  | .close fd => after (sysClose sb cur fd)
  | .dup fd => after (sysDup cur fd)
  | .fork mem => after (Syscall.fork mem cur)
  | .exit => after (Syscall.exit sb cur)
  | .reap p => after (Syscall.reap p)
  | .chdir path => after (sysChdir sb devsw cur path)
  | .link old new => after (inside cur fun cwd => Call.sysLink sb devsw cwd old new)
  | .slink old new => after (inside cur fun cwd => Call.sysSlink sb devsw cwd old new)
  | .unlink path => after (inside cur fun cwd => Call.sysUnlink sb devsw cwd path)
  | .mkdir path => after (inside cur fun cwd => Call.sysMkdir sb devsw cwd path)
  | .mknod path major minor =>
    after (inside cur fun cwd => Call.sysMknod sb devsw cwd path major minor)

end SysAction

/-- One system call after the other, of processes that are running. -/
def Sys.step (sb : Superblock) (devsw : Fin NDEV → Devsw) (s : Sys)
    (a : Fin NPROC × SysAction) : Option Sys :=
  if (s.proc a.1).state = .live then a.2.perform sb devsw a.1 s else none

/-- The first process, in the root directory. -/
def Sys.boot (σ : Contents) : Sys where
  kernel := ⟨σ, σ, fun s => if s = 0 then { Inode.unset with inum := ROOTINO, ref := 1 }
    else Inode.unset⟩
  file := fun _ => ⟨.none, 0, false, false, 0, 0⟩
  proc := fun p => ⟨if p = 0 then .live else .unused, fun _ => none,
    if p = 0 then some 0 else none⟩

/-! ### The image of mkfs.c without files -/

def rootDinode : Dinode := ⟨T_DIR, 0, 0, 1, 512, fun k => if k.val = 0 then 143 else 0⟩

/-- The root directory has the entries "." and "..". -/
def rootBlock : Block :=
  Buffer.patch (fun _ => 0) 0 (encodeDirent ROOTINO [46] ++ encodeDirent ROOTINO [46, 46])

def rootImage : Contents :=
  Function.update (Function.update (updated Superblock.mkfs (fun _ _ => 0) ROOTINO rootDinode)
    118 (usedBlock 144)) 143 rootBlock

def noDevices : Fin NDEV → Devsw := fun _ => ⟨none, none⟩

/-- The first process alone makes calls. -/
def alone (as : List SysAction) : Option Sys :=
  run (Sys.step Superblock.mkfs noDevices) (Sys.boot rootImage) (as.map fun a => (0, a))

end Xv6.Fs
