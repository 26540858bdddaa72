import Xv6.Mlfq.Table

/-!
# The process and thread table of project2 (project2/proc.h, proc.c, exec.c)

`fork`, `thread_create`, `thread_exit`, `thread_join`, `exit`, `wait`, `exec` and
`exec2`, `growproc` and `setmemorylimit`, with the parts of file.c, sysfile.c,
log.c and sleeplock.c whose counts they share. One CPU (run.sh starts the machine with
`-smp 1`) runs one thread at a time and may switch at any statement outside
`ptable.lock`: the parts under the lock are one step each, and so is each statement
of `fork` and `thread_create` that writes to the table without the lock. `nextpid++`
and `nexttid++` read and write the counter in two steps (proc.c:214, 673), and the
loops over `ofile` (proc.c:222, 703) take three for each descriptor. In a file system
call each change of a count is a step, and a thread carries along what it has in its
local variables.
-/

namespace Xv6.Threads

open Mlfq (NPROC Slot Procstate)

def NOFILE : Nat := 16
def NFILE : Nat := 100
def NINODE : Nat := 50
def NBUF : Nat := 30
def PGSIZE : Nat := 4096
def KERNBASE : Nat := 2147483648

/-- Conversion to a 32-bit `uint`. -/
def uint (n : Int) : Nat := (n % 4294967296).toNat

/-- `n + 1` on a 32-bit `int`. -/
def nextInt (n : Int) : Int := Int.bmod (n + 1) 4294967296

/-- What a `void *chan` points to. The null pointer is `(void*)0`, the channel of
`thread_join(0)`. -/
inductive Chan where
  | proc (p : Slot)
  | tid (n : Nat)
  | other (n : Nat)
  deriving DecidableEq, Repr

/-- `struct proc` (proc.h). A page directory and an inode are known by a number. -/
structure Proc where
  sz : Nat
  pgdir : Option Nat
  state : Procstate
  pid : Int
  parent : Option Slot
  chan : Option Chan
  killed : Bool
  ofile : Fin NOFILE → Option (Fin NFILE)
  cwd : Option Nat
  memorylimit : Int
  mainthread : Option Slot
  tid : Nat
  retval : Nat

inductive FileType where
  | none | pipe | inode
  deriving DecidableEq, Repr

/-- `struct file` (file.h): what its reference count depends on. -/
structure File where
  type : FileType
  ref : Nat
  ip : Option Nat
  deriving DecidableEq, Repr

/-- `struct sleeplock`; `locked` is set in `held` and in `orphaned`. Which thread
holds a lock, and that it is gone, is not recorded in the C structure. -/
inductive Sleeplock where
  | unlocked
  | held (p : Slot)
  | orphaned
  deriving DecidableEq, Repr

/-- The inode that an open file refers to. -/
def File.inode (r : File) : Option Nat := if r.type = .inode then r.ip else none

/-! ### Where a thread is -/

/-- In a file system call. `ips`, `ip`, `f`, `rf` and `wf` are inodes and files in local
variables, of which the thread has a reference. -/
inductive FsStage where
  /-- In `namei`, `create`, `link`, `unlink` and the like, and at the ends of all calls. -/
  | io (ips : List Nat)
  /-- In `sys_open`, after `filealloc` and after `fdalloc`. -/
  | «open» (ip : Nat) (f : Fin NFILE)
  | opened (ip : Nat) (f : Fin NFILE)
  /-- In `sys_chdir`, after `iput(curproc->cwd)`. -/
  | chdir (ip : Nat) (cwd : Option Nat)
  /-- In `sys_dup`, after `fdalloc`. -/
  | dup (f : Fin NFILE)
  /-- In `pipealloc`, and after it in `sys_pipe`. -/
  | pipe (rf : Fin NFILE)
  | pipes (rf wf : Fin NFILE)
  | ends (rf wf : Fin NFILE)
  | fd0 (rf wf : Fin NFILE) (fd : Fin NOFILE)
  /-- Before `fileclose(f)`, which those of `fs` and the `iput`s of `ips` follow. -/
  | close (f : Fin NFILE) (fs : List (Fin NFILE)) (ips : List Nat)
  deriving DecidableEq, Repr

/-- What a file system call does next. -/
inductive FsOp where
  | iget (ip : Nat)
  | iput (ip : Nat)
  | filealloc
  | fdalloc
  | setInode
  | chdir
  | setCwd
  | dup (fd : Fin NOFILE)
  | filedup
  | kalloc (enough : Bool)
  | close (fd : Fin NOFILE)
  | fileclose
  deriving DecidableEq, Repr

/-- In the part of `exit` and `thread_exit` before `ptable.lock`. -/
inductive CloseStage where
  | ofile (fd : Fin NOFILE)
  /-- In `fileclose(f)`, before `iput(ff.ip)`. -/
  | iput (fd : Fin NOFILE) (f : Fin NFILE) (ip : Nat)
  | clear (fd : Fin NOFILE) (f : Fin NFILE)
  | cwd
  | clearCwd (cwd : Option Nat)
  | last
  deriving DecidableEq, Repr

/-- The next access of the loop over `ofile` that ends `fork` and `thread_create`, and of
the statement after it. `f` and `ip` are what was read from the other slot. -/
inductive CopyStage where
  | ofile (fd : Fin NOFILE)
  | filedup (fd : Fin NOFILE) (f : Fin NFILE)
  | setOfile (fd : Fin NOFILE) (f : Fin NFILE)
  | cwd
  | idup (ip : Nat)
  | setCwd (ip : Option Nat)
  deriving DecidableEq, Repr

theorem nofile_pos : 0 < NOFILE := by decide

def CopyStage.first : CopyStage := .ofile ⟨0, nofile_pos⟩

def CloseStage.first : CloseStage := .ofile ⟨0, nofile_pos⟩

/-- The next statement of `fork` on the new slot. `n` is the value of `nextpid` that was
read: what the counter is set to comes from it, and so does the pid. -/
inductive ForkStage where
  | pgdir | sz | parent | mainthread
  | pid | nextpid (n : Int) | setPid (n : Int)
  | tid | memorylimit
  | files (st : CopyStage)
  | runnable
  deriving DecidableEq, Repr

/-- The next statement of `thread_create` on the new slot. -/
inductive ThreadStage where
  | pgdir | sz | parent | mainthread | pid
  | tid | nexttid (n : Int) | setTid (n : Int)
  | retval | mainParent | limit | alloc | mainSz | copyout
  | files (st : CopyStage)
  | runnable
  deriving DecidableEq, Repr

/-- `exec` and `exec2` from `setupkvm` on: loading the program from the inode `ip`,
`cleanforexec` after its `iput`, building the stack, freeing the old page directory. -/
inductive ExecStage where
  | load (ip : Nat) | clean | stack | free
  deriving DecidableEq, Repr

/-- Where a thread is between two steps. `pgdir` is the local variable of `exec`
(`oldpgdir` in the last stage), `main` the one of `thread_create`. -/
inductive Pc where
  | user
  | fs (st : FsStage)
  | fork (np : Slot) (st : ForkStage)
  | thread (np main : Slot) (st : ThreadStage)
  | exit (st : CloseStage)
  | threadExit (retval : Nat) (st : CloseStage)
  | wait
  | join (thread : Nat)
  | exec (pgdir : Nat) (st : ExecStage)
  deriving DecidableEq, Repr

-- Behind freevm(pgdir); iunlockput(ip) is left while the program is loaded.
def ExecStage.bad : ExecStage → Pc
  | .load ip => .fs (.io [ip])
  | _ => .user

/-- The table and what belongs to it. `vm` marks the page directories in use,
`iref` counts the references to an inode's cache entry, `inOp` marks the threads
between `begin_op` and `end_op`, and `lockHeld` says that a `growproc` returned
without releasing `ptable.lock`. `forker` is a ghost: the pid of the process that
forked the slot. -/
structure State where
  proc : Slot → Proc
  pc : Slot → Pc
  initproc : Slot
  nextpid : Int
  nexttid : Int
  vm : Nat → Bool
  file : Fin NFILE → File
  iref : Nat → Int
  outstanding : Int
  inOp : Slot → Bool
  lock : Fin (NINODE + NBUF) → Sleeplock
  lockHeld : Bool
  forker : Slot → Int

/-- `cleanthread` on a ZOMBIE. -/
def Proc.clean (r : Proc) : Proc :=
  { r with pid := 0, tid := 0, parent := none, killed := false, state := .unused, retval := 0 }

/-- What `wait` does to the slot it reaps. -/
def Proc.reap (r : Proc) : Proc :=
  { r with pid := 0, parent := none, killed := false, state := .unused }

namespace State

/-! ### Access to one entry -/

def setProc (s : State) (p : Slot) (f : Proc → Proc) : State :=
  { s with proc := Function.update s.proc p (f (s.proc p)) }

def setPc (s : State) (p : Slot) (k : Pc) : State :=
  { s with pc := Function.update s.pc p k }

/-- The threads in `gone` cease to exist where they are: their slots are cleaned,
and what they hold stays behind. -/
def vacate (s : State) (gone : Slot → Bool) : State :=
  { s with
    proc := fun q => if gone q then (s.proc q).clean else s.proc q
    pc := fun q => if gone q then .user else s.pc q
    inOp := fun q => if gone q then false else s.inOp q
    lock := fun l =>
      match s.lock l with
      | .held p => if gone p then .orphaned else .held p
      | k => k }

/-- `wakeup1`. -/
def wakeup1 (s : State) (chan : Chan) : State :=
  { s with
    proc := fun q =>
      if (s.proc q).state = .sleeping ∧ (s.proc q).chan = some chan then
        { s.proc q with state := .runnable }
      else s.proc q }

-- `wakeup1(curproc->parent)`: the parent may be null.
def wakeParent (s : State) (i : Slot) : State :=
  match (s.proc i).parent with
  | some p => s.wakeup1 (.proc p)
  | none => s.wakeup1 (.tid 0)

/-! ### Files (file.c, sysfile.c) -/

def idup (s : State) (ip : Option Nat) : State :=
  match ip with
  | some n => { s with iref := Function.update s.iref n (s.iref n + 1) }
  | none => s

def iput (s : State) (ip : Option Nat) : State :=
  match ip with
  | some n => { s with iref := Function.update s.iref n (s.iref n - 1) }
  | none => s

def filedup (s : State) (f : Fin NFILE) : State :=
  { s with file := Function.update s.file f { s.file f with ref := (s.file f).ref + 1 } }

/-- `fileclose` up to `iput(ff.ip)`, with the inode that goes to it. -/
def fileclose (s : State) (f : Fin NFILE) : State × Option Nat :=
  let r := s.file f
  if 1 < r.ref then ({ s with file := Function.update s.file f { r with ref := r.ref - 1 } }, none)
  else
    ({ s with file := Function.update s.file f { r with type := .none, ref := 0 } }, r.inode)

def setFd (s : State) (i : Slot) (fd : Fin NOFILE) (f : Option (Fin NFILE)) : State :=
  s.setProc i fun r => { r with ofile := Function.update r.ofile fd f }

/-- The file that `filealloc` takes. -/
def filealloc (s : State) : Option (Fin NFILE) :=
  (List.finRange NFILE).find? fun f => (s.file f).ref = 0

def fdalloc (s : State) (i : Slot) : Option (Fin NOFILE) :=
  (List.finRange NOFILE).find? fun fd => (s.proc i).ofile fd = none

def setRef (s : State) (f : Fin NFILE) (ref : Nat) : State :=
  { s with file := Function.update s.file f { s.file f with ref := ref } }

def setType (s : State) (f : Fin NFILE) (type : FileType) : State :=
  { s with file := Function.update s.file f { s.file f with type := type } }

/-- The thread `i` is in no operation of the log and holds no sleeplock. -/
def idle (s : State) (i : Slot) : Prop := s.inOp i = false ∧ ∀ l, s.lock l ≠ .held i

instance (s : State) (i : Slot) : Decidable (s.idle i) := inferInstanceAs (Decidable (_ ∧ _))

/-- The `fileclose`s that are left. -/
def closing (fs : List (Fin NFILE)) (ips : List Nat) : FsStage :=
  match fs with
  | [] => .io ips
  | f :: fs => .close f fs ips

/-- One change of a count in a file system call, and where the call goes next. `filedup` and
`fileclose` panic on a file without references. -/
def fsNext (s : State) (i : Slot) : FsStage → FsOp → Option (State × FsStage)
  | .io ips, .iget ip => some (s.idup (some ip), .io (ip :: ips))
  | .io ips, .iput ip => if ip ∈ ips then some (s.iput (some ip), .io (ips.erase ip)) else none
  -- sys_open; filealloc() == 0 leads to iunlockput(ip)
  | .io [ip], .filealloc => s.filealloc.map fun f => (s.setRef f 1, .open ip f)
  | .open ip f, .fdalloc =>
    match s.fdalloc i with
    | some fd => some (s.setFd i fd (some f), .opened ip f)
    | none => some (s, .close f [] [ip])
  | .opened ip f, .setInode =>
    if s.idle i then
      some ({ s with file :=
        Function.update s.file f { s.file f with type := .inode, ip := some ip } }, .io [])
    else none
  | .io [ip], .chdir => some (s.iput (s.proc i).cwd, .chdir ip (s.proc i).cwd)
  | .chdir ip _, .setCwd =>
    if s.idle i then some (s.setProc i fun r => { r with cwd := some ip }, .io []) else none
  | .io [], .dup fd =>
    match (s.proc i).ofile fd, s.fdalloc i with
    | some f, some fd' => some (s.setFd i fd' (some f), .dup f)
    | _, _ => none
  | .dup f, .filedup => if 0 < (s.file f).ref then some (s.filedup f, .io []) else none
  -- pipealloc
  | .io [], .filealloc => s.filealloc.map fun rf => (s.setRef rf 1, .pipe rf)
  | .pipe rf, .filealloc =>
    match s.filealloc with
    | some wf => some (s.setRef wf 1, .pipes rf wf)
    | none => some (s, .close rf [] [])
  | .pipes rf wf, .kalloc enough =>
    if enough then some ((s.setType rf .pipe).setType wf .pipe, .ends rf wf)
    else some (s, .close rf [wf] [])
  -- sys_pipe
  | .ends rf wf, .fdalloc =>
    match s.fdalloc i with
    | some fd => some (s.setFd i fd (some rf), .fd0 rf wf fd)
    | none => some (s, .close rf [wf] [])
  | .fd0 rf wf fd, .fdalloc =>
    match s.fdalloc i with
    | some fd' => some (s.setFd i fd' (some wf), .io [])
    | none => some (s.setFd i fd none, .close rf [wf] [])
  | .io [], .close fd => ((s.proc i).ofile fd).map fun f => (s.setFd i fd none, .close f [] [])
  | .close f fs ips, .fileclose =>
    if 0 < (s.file f).ref then
      some ((s.fileclose f).1, closing fs ((s.fileclose f).2.toList ++ ips))
    else none
  | _, _ => none

/-- The loop over `ofile` goes on with the next descriptor. -/
def nextClose (fd : Fin NOFILE) : CloseStage :=
  if h : fd.val + 1 < NOFILE then .ofile ⟨fd.val + 1, h⟩ else .cwd

-- Close all open files, iput(curproc->cwd); cwd = 0 follows end_op().
def closeNext (s : State) (i : Slot) : CloseStage → Option (State × CloseStage)
  | .ofile fd =>
    match (s.proc i).ofile fd with
    | some f =>
      if 0 < (s.file f).ref then
        match (s.fileclose f).2 with
        | some ip => some ((s.fileclose f).1, .iput fd f ip)
        | none => some ((s.fileclose f).1, .clear fd f)
      else none
    | none => some (s, nextClose fd)
  | .iput fd f ip => some (s.iput (some ip), .clear fd f)
  | .clear fd _ => some (s.setFd i fd none, nextClose fd)
  | .cwd => some (s.iput (s.proc i).cwd, .clearCwd (s.proc i).cwd)
  | .clearCwd _ =>
    if s.idle i then some (s.setProc i fun r => { r with cwd := none }, .last) else none
  | .last => none

/-- The loop goes on with the next descriptor. -/
def nextFd (fd : Fin NOFILE) : CopyStage :=
  if h : fd.val + 1 < NOFILE then .ofile ⟨fd.val + 1, h⟩ else .cwd

/-- One access of the loop that copies the files of slot `p`, and where it goes next. -/
def copyNext (s : State) (p np : Slot) : CopyStage → State × Option CopyStage
  | .ofile fd =>
    match (s.proc p).ofile fd with
    | some f => (s, some (.filedup fd f))
    | none => (s, some (nextFd fd))
  | .filedup fd f => (s.filedup f, some (.setOfile fd f))
  | .setOfile fd f => (s.setFd np fd (some f), some (nextFd fd))
  | .cwd =>
    match (s.proc p).cwd with
    | some ip => (s, some (.idup ip))
    | none => (s, some (.setCwd none))
  | .idup ip => (s.idup (some ip), some (.setCwd (some ip)))
  | .setCwd ip => (s.setProc np fun r => { r with cwd := ip }, none)

/-! ### Memory (vm.c) -/

/-- `allocuvm`; `enough` says whether there is memory. -/
def allocuvm (oldsz newsz : Nat) (enough : Bool) : Nat :=
  if KERNBASE ≤ newsz then 0 else if newsz < oldsz then oldsz else if enough then newsz else 0

def deallocuvm (oldsz newsz : Nat) : Nat := if oldsz ≤ newsz then oldsz else newsz

def setVm (s : State) (pd : Nat) (used : Bool) : State :=
  { s with vm := Function.update s.vm pd used }

/-- `freevm`. -/
def freevm (s : State) (pd : Nat) : State := s.setVm pd false

/-! ### The functions of proc.c -/

def allocproc (s : State) : Option Slot :=
  (List.finRange NPROC).find? fun p => (s.proc p).state = .unused

def fork (s : State) (i : Slot) : State :=
  match s.allocproc with
  | none => s
  | some np => (s.setProc np fun r => { r with state := .embryo }).setPc i (.fork np .pgdir)

-- When there is no kernel stack.
def allocFail (s : State) (i np : Slot) : State :=
  (s.setProc np fun r => { r with state := .unused }).setPc i .user

-- When copyuvm() returns 0, which np->pgdir then is.
def forkFail (s : State) (i np : Slot) : State :=
  (s.setProc np fun r => { r with pgdir := none, state := .unused }).setPc i .user

/-- The statements of `fork` after `allocproc`; `copyuvm` returns `pd`. -/
def forkNext (s : State) (i np : Slot) (pd : Nat) : ForkStage → State
  | .pgdir =>
    ((s.setVm pd true).setProc np fun r => { r with pgdir := some pd }).setPc i (.fork np .sz)
  | .sz => (s.setProc np fun r => { r with sz := (s.proc i).sz }).setPc i (.fork np .parent)
  | .parent =>
    ({ s with forker := Function.update s.forker np (s.proc i).pid }.setProc np fun r =>
      { r with parent := some i }).setPc i (.fork np .mainthread)
  | .mainthread =>
    (s.setProc np fun r => { r with mainthread := some np }).setPc i (.fork np .pid)
  | .pid => s.setPc i (.fork np (.nextpid s.nextpid))
  | .nextpid n => { s with nextpid := nextInt n }.setPc i (.fork np (.setPid n))
  | .setPid n => (s.setProc np fun r => { r with pid := n }).setPc i (.fork np .tid)
  | .tid => (s.setProc np fun r => { r with tid := 0 }).setPc i (.fork np .memorylimit)
  | .memorylimit =>
    (s.setProc np fun r => { r with memorylimit := 0 }).setPc i (.fork np (.files .first))
  | .files st =>
    (s.copyNext i np st).1.setPc i (.fork np ((s.copyNext i np st).2.elim .runnable .files))
  | .runnable => (s.setProc np fun r => { r with state := .runnable }).setPc i .user

/-- `thread_create` up to `allocproc`; a null `mainthread` is dereferenced, which is
not modelled. -/
def threadCreate (s : State) (i : Slot) : Option State :=
  (s.proc i).mainthread.map fun main =>
    match s.allocproc with
    | none => s
    | some np =>
      (s.setProc np fun r => { r with state := .embryo }).setPc i (.thread np main .pgdir)

/-- The statements of `thread_create` after `allocproc`; `enough` says whether
`allocuvm` and `copyout` succeed. The failing ways leave the slot EMBRYO. -/
def threadNext (s : State) (i np main : Slot) (enough : Bool) : ThreadStage → State
  | .pgdir =>
    (s.setProc np fun r => { r with pgdir := (s.proc main).pgdir }).setPc i (.thread np main .sz)
  | .sz => (s.setProc np fun r => { r with sz := (s.proc main).sz }).setPc i (.thread np main .parent)
  | .parent => (s.setProc np fun r => { r with parent := some i }).setPc i (.thread np main .mainthread)
  | .mainthread =>
    (s.setProc np fun r => { r with mainthread := some main }).setPc i (.thread np main .pid)
  | .pid => (s.setProc np fun r => { r with pid := (s.proc main).pid }).setPc i (.thread np main .tid)
  | .tid => s.setPc i (.thread np main (.nexttid s.nexttid))
  | .nexttid n => { s with nexttid := nextInt n }.setPc i (.thread np main (.setTid n))
  | .setTid n => (s.setProc np fun r => { r with tid := uint n }).setPc i (.thread np main .retval)
  | .retval => (s.setProc np fun r => { r with retval := 0 }).setPc i (.thread np main .mainParent)
  | .mainParent =>
    (s.setProc np fun r => { r with parent := (s.proc main).parent }).setPc i (.thread np main .limit)
  | .limit =>
    if (s.proc main).memorylimit ≠ 0 ∧
        uint (s.proc main).memorylimit < uint ((s.proc main).sz + 2 * PGSIZE) then s.setPc i .user
    else s.setPc i (.thread np main .alloc)
  | .alloc =>
    let sz := allocuvm (s.proc np).sz (uint ((s.proc np).sz + 2 * PGSIZE)) enough
    (s.setProc np fun r => { r with sz := sz }).setPc i
      (if sz = 0 then .user else .thread np main .mainSz)
  | .mainSz =>
    (s.setProc main fun r => { r with sz := (s.proc np).sz }).setPc i (.thread np main .copyout)
  | .copyout => s.setPc i (if enough then .thread np main (.files .first) else .user)
  | .files st =>
    (s.copyNext main np st).1.setPc i
      (.thread np main ((s.copyNext main np st).2.elim .runnable .files))
  | .runnable => (s.setProc np fun r => { r with state := .runnable }).setPc i .user

/-- The other slots that have the pid of `i`, which the loops of `exit` and
`cleanforexec` make ZOMBIE and clean. -/
def siblings (s : State) (i q : Slot) : Bool := (s.proc q).pid = (s.proc i).pid ∧ q ≠ i

/-- The loops panic on a free slot: it has no kernel stack to pass to `kfree`. -/
def freeSibling (s : State) (i : Slot) : Prop :=
  ∃ q, s.siblings i q ∧ (s.proc q).state = .unused

instance (s : State) (i : Slot) : Decidable (s.freeSibling i) :=
  inferInstanceAs (Decidable (∃ _, _))

-- Pass abandoned children to init.
def reparent (s : State) (i : Slot) : State :=
  let t := { s with
    proc := fun q =>
      if (s.proc q).parent = some i then { s.proc q with parent := some s.initproc } else s.proc q }
  if ∃ q, (s.proc q).parent = some i ∧ (s.proc q).state = .zombie then t.wakeup1 (.proc s.initproc)
  else t

/-- The part of `exit` under `ptable.lock`. -/
def exitLast (s : State) (i : Slot) : State :=
  let s := (((s.vacate (s.siblings i)).wakeParent i).reparent i)
  (s.setProc i fun r => { r with state := .zombie }).setPc i .user

/-- The part of `thread_exit` under `ptable.lock`. -/
def threadExitLast (s : State) (i : Slot) (retval : Nat) : State :=
  let s := s.setProc i fun r => { r with retval := retval }
  ((s.wakeup1 (.tid (s.proc i).tid)).setProc i fun r => { r with state := .zombie }).setPc i .user

/-- The slot that a round of `wait` reaps. -/
def waitFor (s : State) (i : Slot) : Option Slot :=
  (List.finRange NPROC).find? fun p => (s.proc p).parent = some i ∧ (s.proc p).state = .zombie

-- One round of the for(;;) loop of wait().
def wait (s : State) (i : Slot) : State :=
  match s.waitFor i with
  | some p =>
    let t := match (s.proc p).pgdir with
      | some pd => s.freevm pd
      | none => s
    (t.setProc p Proc.reap).setPc i .user
  | none =>
    if (∀ p, (s.proc p).parent ≠ some i) ∨ (s.proc i).killed then s.setPc i .user
    else (s.setProc i fun r => { r with chan := some (.proc i), state := .sleeping }).setPc i .wait

/-- The slot that a round of `thread_join` joins. -/
def joinFor (s : State) (thread : Nat) : Option Slot :=
  (List.finRange NPROC).find? fun p => (s.proc p).tid = thread ∧ (s.proc p).state = .zombie

/-- One round of the for(;;) loop of `thread_join`, with the value returned and
`*retval`; no value means that the caller sleeps. -/
def threadJoin (s : State) (i : Slot) (thread : Nat) : Option (Int × Option Nat) × State :=
  match s.joinFor thread with
  | some p =>
    (some (0, some (s.proc p).retval), (s.vacate fun q => q = p).setPc i .user)
  | none =>
    if (∀ p, (s.proc p).tid ≠ thread) ∨ (s.proc i).killed then (some (-1, none), s.setPc i .user)
    else
      (none, (s.setProc i fun r =>
        { r with chan := some (.tid thread), state := .sleeping }).setPc i (.join thread))

def kill (s : State) (pid : Int) : State :=
  match (List.finRange NPROC).find? fun p => (s.proc p).pid = pid with
  | none => s
  | some p =>
    s.setProc p fun r =>
      { r with killed := true, state := if r.state = .sleeping then .runnable else r.state }

/-- `growproc`. Its failing returns do not release `ptable.lock`; a null
`mainthread` is dereferenced, which is not modelled. -/
def growproc (s : State) (i : Slot) (n : Int) (enough : Bool) : Option State :=
  (s.proc i).mainthread.map fun main =>
    let sz := (s.proc main).sz
    if (s.proc main).memorylimit ≠ 0 ∧ uint (s.proc main).memorylimit < uint (sz + n) then
      { s with lockHeld := true }
    else
      let sz' :=
        if 0 < n then allocuvm sz (uint (sz + n)) enough
        else if n < 0 then deallocuvm sz (uint (sz + n))
        else sz
      if n ≠ 0 ∧ sz' = 0 then { s with lockHeld := true }
      else s.setProc main fun r => { r with sz := sz' }

/-- `setmemorylimit`, with the value returned. -/
def setmemorylimit (s : State) (pid limit : Int) : Int × State :=
  if limit < 0 then (-1, s)
  else
    match (List.finRange NPROC).find? fun p => (s.proc p).pid = pid with
    | none => (-1, s)
    | some p =>
      if uint limit < (s.proc p).sz then (-1, s)
      else (0, s.setProc p fun r => { r with memorylimit := limit })

/-! ### exec.c -/

/-- `setupkvm` in `exec` and `exec2`. -/
def exec (s : State) (i : Slot) (pd ip : Nat) : State :=
  (s.setVm pd true).setPc i (.exec pd (.load ip))

/-- `iput(ip)` after loading. -/
def execPut (s : State) (i : Slot) (pd ip : Nat) : State :=
  (s.iput (some ip)).setPc i (.exec pd .clean)

/-- The way out by `bad`. -/
def execBad (s : State) (i : Slot) (pd : Nat) (st : ExecStage) : State :=
  (s.freevm pd).setPc i st.bad

def cleanforexec (s : State) (i : Slot) : State :=
  if (s.proc i).tid = 0 then s else s.vacate (s.siblings i)

/-- Commit to the user image, of size `sz`; `oldpgdir` is kept for `freevm`. -/
def execCommit (s : State) (i : Slot) (pd sz : Nat) : Option State :=
  (s.proc i).pgdir.map fun oldpgdir =>
    (s.setProc i fun r => { r with pgdir := some pd, sz := sz }).setPc i (.exec oldpgdir .free)

def execFree (s : State) (i : Slot) (oldpgdir : Nat) : State :=
  (s.freevm oldpgdir).setPc i .user

end State

/-- The table entry of a slot that was never used. -/
def Proc.zero : Proc :=
  ⟨0, none, .unused, 0, none, none, false, fun _ => none, none, 0, none, 0, 0⟩

def ROOTINO : Nat := 1

/-- After `userinit`, which sets neither `pid` nor `mainthread`. -/
def userinit : State where
  proc := Function.update (fun _ => Proc.zero) 0
    { Proc.zero with sz := PGSIZE, pgdir := some 0, state := .runnable, cwd := some ROOTINO }
  pc := fun _ => .user
  initproc := 0
  nextpid := 1
  nexttid := 1
  vm := Function.update (fun _ => false) 0 true
  file := fun _ => ⟨.none, 0, none⟩
  iref := Function.update (fun _ => 0) ROOTINO 1
  outstanding := 0
  inOp := fun _ => false
  lock := fun _ => .unlocked
  lockHeld := false
  forker := fun _ => 0

/-! ### Steps -/

/-- What a thread does next, or what happens to it. A file system call is the steps from
`fsCall` to `fsReturn`; the last four are what it does with the log and the sleeplocks. -/
inductive Action where
  | sched (p : Slot)
  | yield (p : Slot)
  | sleep (p : Slot) (n : Nat)
  | wakeup (chan : Chan)
  | kill (pid : Int)
  | fork (i : Slot)
  | allocFail (i : Slot)
  | forkFail (i : Slot)
  | forkNext (i : Slot) (pd : Nat)
  | threadCreate (i : Slot)
  | threadNext (i : Slot) (enough : Bool)
  | exit (i : Slot)
  | threadExit (i : Slot) (retval : Nat)
  | closeNext (i : Slot)
  | exitLast (i : Slot)
  | wait (i : Slot)
  | threadJoin (i : Slot) (thread : Nat)
  | exec (i : Slot) (pd : Nat)
  | execPut (i : Slot)
  | execBad (i : Slot)
  | cleanforexec (i : Slot)
  | execCommit (i : Slot) (sz : Nat)
  | execFree (i : Slot)
  | growproc (i : Slot) (n : Int) (enough : Bool)
  | setmemorylimit (i : Slot) (pid limit : Int)
  | fsCall (i : Slot)
  | fs (i : Slot) (op : FsOp)
  | fsReturn (i : Slot)
  | beginOp (i : Slot)
  | endOp (i : Slot)
  | acquiresleep (i : Slot) (l : Fin (NINODE + NBUF))
  | releasesleep (i : Slot) (l : Fin (NINODE + NBUF))
  deriving Repr

/-- With an `iput`, which wakes those that wait for the inode. -/
def FsOp.puts : FsOp → Bool
  | .iput _ | .chdir => true
  | _ => false

def CloseStage.puts : CloseStage → Bool
  | .iput _ _ _ | .cwd => true
  | _ => false

/-- The steps that acquire `ptable.lock`, by themselves or in a `wakeup`. -/
def usesPtable (s : State) : Action → Bool
  | .forkNext i _ =>
    match s.pc i with
    | .fork _ .runnable => true
    | _ => false
  | .threadNext i _ =>
    match s.pc i with
    | .thread _ _ .runnable => true
    | _ => false
  | .closeNext i =>
    match s.pc i with
    | .exit st | .threadExit _ st => st.puts
    | _ => false
  | .fs _ op => op.puts
  | .allocFail _ | .forkFail _ | .exit _ | .threadExit _ _ | .exec _ _ | .execBad _
  | .execCommit _ _ | .execFree _ | .fsCall _ | .fsReturn _ | .beginOp _
  | .acquiresleep _ _ => false
  | .cleanforexec i => (s.proc i).tid ≠ 0
  | _ => true

/-- The thread `i` has the CPU, and is in none of the calls below. -/
def State.atUser (s : State) (i : Slot) : Prop := (s.proc i).state = .running ∧ s.pc i = .user

instance (s : State) (i : Slot) : Decidable (s.atUser i) := inferInstanceAs (Decidable (_ ∧ _))

/-- The file that the next step passes to `filedup`, which panics on one without
references. -/
def ForkStage.dup : ForkStage → Option (Fin NFILE)
  | .files (.filedup _ f) => some f
  | _ => none

def ThreadStage.dup : ThreadStage → Option (Fin NFILE)
  | .files (.filedup _ f) => some f
  | _ => none

def State.dupOk (s : State) (f : Option (Fin NFILE)) : Bool := f.all fun f => 0 < (s.file f).ref

/-- The places at which a thread is in the file system. -/
def Pc.inFs : Pc → Bool
  | .fs _ | .exec _ (.load _) | .exec _ .clean => true
  | .exit st | .threadExit _ st => st ≠ .last
  | _ => false

/-- A step of the system; a thread acts only while it is RUNNING. -/
def step (s : State) (a : Action) : Option State :=
  if s.lockHeld ∧ usesPtable s a then none
  else
    match a with
    | .sched p =>
      if (s.proc p).state = .runnable ∧ ∀ q, (s.proc q).state ≠ .running then
        some (s.setProc p fun r => { r with state := .running })
      else none
    | .yield p =>
      if (s.proc p).state = .running then some (s.setProc p fun r => { r with state := .runnable })
      else none
    | .sleep p n =>
      if (s.proc p).state = .running then
        some (s.setProc p fun r => { r with chan := some (.other n), state := .sleeping })
      else none
    | .wakeup chan => some (s.wakeup1 chan)
    | .kill pid => some (s.kill pid)
    | .fork i => if s.atUser i then some (s.fork i) else none
    | .allocFail i =>
      match s.pc i with
      | .fork np .pgdir => if (s.proc i).state = .running then some (s.allocFail i np) else none
      | .thread np _ .pgdir => if (s.proc i).state = .running then some (s.allocFail i np) else none
      | _ => none
    | .forkFail i =>
      match s.pc i with
      | .fork np .pgdir => if (s.proc i).state = .running then some (s.forkFail i np) else none
      | _ => none
    | .forkNext i pd =>
      match s.pc i with
      | .fork np st =>
        if (s.proc i).state = .running ∧ (st = .pgdir → s.vm pd = false) ∧ s.dupOk st.dup then
          some (s.forkNext i np pd st)
        else none
      | _ => none
    | .threadCreate i => if s.atUser i then s.threadCreate i else none
    | .threadNext i enough =>
      match s.pc i with
      | .thread np main st =>
        if (s.proc i).state = .running ∧ s.dupOk st.dup then
          some (s.threadNext i np main enough st)
        else none
      | _ => none
    | .exit i =>
      if s.atUser i ∧ i ≠ s.initproc then some (s.setPc i (.exit .first)) else none
    | .threadExit i retval =>
      if s.atUser i ∧ i ≠ s.initproc then some (s.setPc i (.threadExit retval .first))
      else none
    | .closeNext i =>
      match s.pc i with
      | .exit st =>
        if (s.proc i).state = .running then
          (s.closeNext i st).map fun r => r.1.setPc i (.exit r.2)
        else none
      | .threadExit retval st =>
        if (s.proc i).state = .running then
          (s.closeNext i st).map fun r => r.1.setPc i (.threadExit retval r.2)
        else none
      | _ => none
    | .exitLast i =>
      match s.pc i with
      | .exit .last =>
        if (s.proc i).state = .running ∧ ¬s.freeSibling i then some (s.exitLast i) else none
      | .threadExit retval .last =>
        if (s.proc i).state = .running then some (s.threadExitLast i retval) else none
      | _ => none
    | .wait i =>
      if (s.proc i).state = .running ∧ (s.pc i = .user ∨ s.pc i = .wait) then
        some (s.wait i)
      else none
    | .threadJoin i thread =>
      if (s.proc i).state = .running ∧ (s.pc i = .user ∨ s.pc i = .join thread) then
        some (s.threadJoin i thread).2
      else none
    | .exec i pd =>
      match s.pc i with
      | .fs (.io [ip]) =>
        if (s.proc i).state = .running ∧ s.vm pd = false then some (s.exec i pd ip) else none
      | _ => none
    | .execPut i =>
      match s.pc i with
      | .exec pd (.load ip) =>
        if (s.proc i).state = .running then some (s.execPut i pd ip) else none
      | _ => none
    | .execBad i =>
      match s.pc i with
      | .exec pd (.load ip) =>
        if (s.proc i).state = .running then some (s.execBad i pd (.load ip)) else none
      | .exec pd .stack =>
        if (s.proc i).state = .running then some (s.execBad i pd .stack) else none
      | _ => none
    | .cleanforexec i =>
      match s.pc i with
      | .exec pd .clean =>
        if (s.proc i).state = .running ∧ s.idle i ∧ ((s.proc i).tid ≠ 0 → ¬s.freeSibling i) then
          some ((s.cleanforexec i).setPc i (.exec pd .stack))
        else none
      | _ => none
    | .execCommit i sz =>
      match s.pc i with
      | .exec pd .stack =>
        if (s.proc i).state = .running ∧ 0 < sz ∧ sz < KERNBASE then s.execCommit i pd sz else none
      | _ => none
    | .execFree i =>
      match s.pc i with
      | .exec oldpgdir .free =>
        if (s.proc i).state = .running then some (s.execFree i oldpgdir) else none
      | _ => none
    | .growproc i n enough => if s.atUser i then s.growproc i n enough else none
    | .setmemorylimit i pid limit =>
      if s.atUser i then some (s.setmemorylimit pid limit).2 else none
    | .fsCall i => if s.atUser i then some (s.setPc i (.fs (.io []))) else none
    | .fs i op =>
      match s.pc i with
      | .fs st =>
        if (s.proc i).state = .running then
          (s.fsNext i st op).map fun r => r.1.setPc i (.fs r.2)
        else none
      | _ => none
    | .fsReturn i =>
      match s.pc i with
      | .fs (.io []) =>
        if (s.proc i).state = .running ∧ s.idle i then some (s.setPc i .user) else none
      | _ => none
    | .beginOp i =>
      if (s.proc i).state = .running ∧ (s.pc i).inFs ∧ s.inOp i = false then
        some { s with outstanding := s.outstanding + 1, inOp := Function.update s.inOp i true }
      else none
    | .endOp i =>
      if (s.proc i).state = .running ∧ (s.pc i).inFs ∧ s.inOp i = true then
        some { s with outstanding := s.outstanding - 1, inOp := Function.update s.inOp i false }
      else none
    | .acquiresleep i l =>
      if (s.proc i).state = .running ∧ (s.pc i).inFs ∧ s.lock l = .unlocked then
        some { s with lock := Function.update s.lock l (.held i) }
      else none
    | .releasesleep i l =>
      if (s.proc i).state = .running ∧ (s.pc i).inFs ∧ s.lock l = .held i then
        some { s with lock := Function.update s.lock l .unlocked }
      else none

/-- The steps of a `fork` that succeeds, of a thread with `n` open files and a current
directory. -/
def forkSteps (i : Slot) (pd : Nat) (n : Nat) : List Action :=
  .fork i :: List.replicate (29 + 2 * n) (.forkNext i pd)

/-- The steps of a `thread_create` that succeeds. -/
def threadSteps (i : Slot) (n : Nat) : List Action :=
  .threadCreate i :: List.replicate (34 + 2 * n) (.threadNext i true)

/-- An `open` of the inode `ip` that succeeds. -/
def openSteps (i : Slot) (ip : Nat) : List Action :=
  [.fsCall i, .fs i (.iget ip), .fs i .filealloc, .fs i .fdalloc, .fs i .setInode, .fsReturn i]

/-- A `close` that leaves references to the file. -/
def closeSteps (i : Slot) (fd : Fin NOFILE) : List Action :=
  [.fsCall i, .fs i (.close fd), .fs i .fileclose, .fsReturn i]

/-- The steps of an `exec` from the inode `ip`. -/
def execSteps (i : Slot) (ip pd : Nat) : List Action :=
  [.fsCall i, .fs i (.iget ip), .exec i pd, .execPut i, .cleanforexec i]

/-- The steps of an `exit`; `n` is 0 where no file is open. -/
def exitSteps (i : Slot) (n : Nat) : List Action :=
  .exit i :: List.replicate (18 + n) (.closeNext i) ++ [.exitLast i]

def threadExitSteps (i : Slot) (retval : Nat) (n : Nat) : List Action :=
  .threadExit i retval :: List.replicate (18 + n) (.closeNext i) ++ [.exitLast i]

-- init forks the process 1 (slot 1), which creates a thread (slot 2) and runs.
def processAndThread : List Action :=
  .sched 0 :: forkSteps 0 1 0 ++ [.yield 0, .sched 1] ++ threadSteps 1 0

end Xv6.Threads
