import Xv6.Fs.Unlink
import Xv6.Lib.Code

/-!
# Paths and the calls that change directories (project3/fs.c, sysfile.c)

The functions that work on the inode cache as a whole. Of a system call this is the part
between `begin_op` and `end_op`; `cwd` is the entry of the directory of the process.
-/

namespace Xv6.Fs
open Buffer

/-- What keeps a call from returning. -/
inductive Stop where
  | panic (e : Panic)
  /-- A loop has not ended in the turns it was given. -/
  | turns
  deriving DecidableEq

abbrev Call (α : Type) := Code Stop Kernel α

abbrev CacheSlot := Fin NINODE

def O_WRONLY : Nat := 1
def O_RDWR : Nat := 2
def O_CREATE : Nat := 512

/-- `struct dirent` with `strncpy(de.name, name, DIRSIZ)`. -/
def encodeDirent (inum : Nat) (name : List Byte) : List Byte :=
  natLE 2 inum ++ (nameOf name ++ List.replicate DIRSIZ 0).take DIRSIZ

theorem length_encodeDirent (inum : Nat) (name : List Byte) :
    (encodeDirent inum name).length = direntSize := by
  unfold encodeDirent
  rw [List.length_append, length_natLE, List.length_take, List.length_append,
    List.length_replicate]
  show 2 + min 14 _ = 16
  have hle : 14 ≤ (nameOf name).length + DIRSIZ := Nat.le_add_left 14 _
  omega

/-! ### Path elements -/

def isSlash (b : Byte) : Bool := b == 47

def skipSlashes (path : List Byte) : List Byte := path.dropWhile isSlash

/-- The next element, in a buffer of DIRSIZ bytes, and what follows it. -/
def skipelem (path : List Byte) : Option (List Byte × List Byte) :=
  let s := skipSlashes path
  if s = [] then none
  else some ((s.takeWhile (! isSlash ·)).take DIRSIZ, skipSlashes (s.dropWhile (! isSlash ·)))

def elemsLoop : Nat → List Byte → List (List Byte)
  | 0, _ => []
  | n + 1, path =>
    match skipelem path with
    | none => []
    | some (name, path) => name :: elemsLoop n path

/-- What `skipelem` returns time after time. Each element takes a character of the path. -/
def elems (path : List Byte) : List (List Byte) := elemsLoop path.length path

-- The examples above skipelem().
example : elems [97, 47, 98, 98, 47, 99] = [[97], [98, 98], [99]] := by decide

example : elems [47, 47, 47, 97, 47, 47, 98, 98] = [[97], [98, 98]] := by decide

/-! ### The inode cache -/

namespace Call

variable (sb : Superblock) (devsw : Fin NDEV → Devsw)

def panic {α : Type} (e : Panic) : Call α := Code.fail (.panic e)

/-- Runs code of fs.c on an entry. -/
def onInode {α : Type} (ip : CacheSlot) (p : Inode → Op (α × Inode)) : Call α := fun k =>
  match (p (k.icache ip)).exec k.disk with
  | .ok ((a, entry), σ) => .ok (a, (k.setInode ip entry).setDisk σ)
  | .error e => .error (.panic e)

/-- Code that returns only the entry. -/
def update (ip : CacheSlot) (p : Inode → Op Inode) : Call Unit :=
  onInode ip fun entry => do
    let entry ← p entry
    pure ((), entry)

/-- The fields of an entry. -/
def inode (ip : CacheSlot) : Call Inode := fun k => .ok (k.icache ip, k)

def iget (inum : Nat) : Call CacheSlot := fun k =>
  match k.iget inum with
  | .ok r => .ok r
  | .error e => .error (.panic e)

def idup (ip : CacheSlot) : Call Unit :=
  update ip fun entry => pure { entry with ref := entry.ref + 1 }

def ilock (ip : CacheSlot) : Call Unit := update ip (Fs.ilock sb)

def iunlock (ip : CacheSlot) : Call Unit := update ip Fs.iunlock

def iput (ip : CacheSlot) : Call Unit := update ip (Fs.iput sb)

def iunlockput (ip : CacheSlot) : Call Unit := do
  iunlock ip
  iput sb ip

def assign (ip : CacheSlot) (a : Assign) : Call Unit := update ip (Fs.assign sb a)

/-- Runs code of fs.c that is on no entry. -/
def onDisk {α : Type} (p : Op α) : Call α := fun k =>
  match p.exec k.disk with
  | .ok (a, σ) => .ok (a, k.setDisk σ)
  | .error e => .error (.panic e)

def ialloc (type : BitVec 16) : Call CacheSlot := do
  let inum ← onDisk (Fs.ialloc sb type)
  iget inum

/-! ### Directories -/

/-- With the offset of the entry. -/
def dirlookup (dp : CacheSlot) (name : List Byte) : Call (Option (CacheSlot × Nat)) := do
  let found ← onInode dp fun entry => Fs.dirlookup sb devsw entry name
  match found with
  | none => pure none
  | some (inum, off) => do
    let ip ← iget inum
    pure (some (ip, off))

-- Look for an empty dirent.
def emptyDirentLoop (dp : Inode) : List Nat → Op (Nat × Inode)
  | [] => pure ((dp.size.toNat + 15) / direntSize * direntSize, dp)
  | off :: offs => do
    let (n, bs, dp) ← readi sb devsw dp (BitVec.ofNat 32 off) (BitVec.ofNat 32 direntSize)
    if n ≠ direntSize then .panic .dirlinkRead
    else if (decodeDirent bs).inum = 0 then pure (off, dp)
    else emptyDirentLoop dp offs

def writei (ip : CacheSlot) (src : List Byte) (off : Nat) : Call Int :=
  onInode ip fun entry => Fs.writei sb devsw entry src (BitVec.ofNat 32 off)
    (BitVec.ofNat 32 src.length)

def dirlink (dp : CacheSlot) (name : List Byte) (inum : Nat) : Call Int := do
  -- Check that name is not present.
  match ← dirlookup sb devsw dp name with
  | some (ip, _) => do
    iput sb ip
    pure (-1)
  | none => do
    let off ← onInode dp fun entry => emptyDirentLoop sb devsw entry (direntOffs entry)
    let n ← writei sb devsw dp (encodeDirent inum name) off
    if n ≠ direntSize then panic .dirlink else pure 0

/-! ### Paths -/

def namexLoop (parent : Bool) : List (List Byte) → CacheSlot →
    Call (Option (CacheSlot × List Byte))
  | [], ip =>
    if parent then do
      iput sb ip
      pure none
    else pure (some (ip, []))
  | name :: path, ip => do
    ilock sb ip
    let entry ← inode ip
    if entry.type ≠ T_DIR then do
      iunlockput sb ip
      pure none
    else if parent ∧ path = [] then do
      -- Stop one level early.
      iunlock ip
      pure (some (ip, name))
    else do
      match ← dirlookup sb devsw ip name with
      | none => do
        iunlockput sb ip
        pure none
      | some (next, _) => do
        iunlockput sb ip
        namexLoop parent path next

-- *path == '/'
def isAbsolute (path : List Byte) : Bool := path.head? == some 47

def namexStart (cwd : CacheSlot) (path : List Byte) : Call CacheSlot :=
  if isAbsolute path then iget ROOTINO
  else do
    idup cwd
    pure cwd

def namex (cwd : CacheSlot) (path : List Byte) (parent : Bool) :
    Call (Option (CacheSlot × List Byte)) := do
  let ip ← namexStart cwd path
  namexLoop sb devsw parent (elems path) ip

def namei (cwd : CacheSlot) (path : List Byte) : Call (Option CacheSlot) := do
  let r ← namex sb devsw cwd path false
  pure (r.map Prod.fst)

def nameiparent (cwd : CacheSlot) (path : List Byte) : Call (Option (CacheSlot × List Byte)) :=
  namex sb devsw cwd path true

/-! ### sysfile.c -/

-- bad: of sys_link
def linkBad (ip : CacheSlot) : Call Int := do
  ilock sb ip
  assign sb ip .unlink
  iunlockput sb ip
  pure (-1)

def sysLink (cwd : CacheSlot) (old new : List Byte) : Call Int := do
  match ← namei sb devsw cwd old with
  | none => pure (-1)
  | some ip => do
    ilock sb ip
    let entry ← inode ip
    if entry.type = T_DIR ∨ entry.type = T_SYM then do
      iunlockput sb ip
      pure (-1)
    else do
      assign sb ip .link
      iunlock ip
      match ← nameiparent sb devsw cwd new with
      | none => linkBad sb ip
      | some (dp, name) => do
        ilock sb dp
        let r ← dirlink sb devsw dp name entry.inum
        if r < 0 then do
          iunlockput sb dp
          linkBad sb ip
        else do
          iunlockput sb dp
          iput sb ip
          pure 0

-- bad: of sys_unlink
def unlinkBad (dp : CacheSlot) : Call Int := do
  iunlockput sb dp
  pure (-1)

-- if(ip->type == T_DIR){ dp->nlink--; iupdate(dp); }
def unlinkParent (dp : CacheSlot) (entry : Inode) : Call Unit :=
  if entry.type = T_DIR then assign sb dp .unlink else pure ()

def sysUnlink (cwd : CacheSlot) (path : List Byte) : Call Int := do
  match ← nameiparent sb devsw cwd path with
  | none => pure (-1)
  | some (dp, name) => do
    ilock sb dp
    -- Cannot unlink "." or "..".
    if namecmp name [46] ∨ namecmp name [46, 46] then unlinkBad sb dp
    else do
      match ← dirlookup sb devsw dp name with
      | none => unlinkBad sb dp
      | some (ip, off) => do
        ilock sb ip
        let entry ← inode ip
        if entry.nlink.toInt < 1 then panic .unlinkNlink
        else do
          let refused ← onInode ip fun entry => unlinkRefuses sb devsw entry
          if refused then do
            iunlockput sb ip
            unlinkBad sb dp
          else do
            let n ← writei sb devsw dp (List.replicate direntSize 0) off
            if n ≠ direntSize then panic .unlinkWritei
            else do
              unlinkParent sb dp entry
              iunlockput sb dp
              assign sb ip .unlink
              iunlockput sb ip
              pure 0

-- Create . and .. entries.
def createDots (type : BitVec 16) (dp ip : CacheSlot) : Call Unit :=
  if type = T_DIR then do
    assign sb dp .link
    let child ← inode ip
    let parent ← inode dp
    let r ← dirlink sb devsw ip [46] child.inum
    if r < 0 then panic .createDots
    else do
      let r ← dirlink sb devsw ip [46, 46] parent.inum
      if r < 0 then panic .createDots else pure ()
  else pure ()

def create (cwd : CacheSlot) (path : List Byte) (type major minor : BitVec 16) :
    Call (Option CacheSlot) := do
  match ← nameiparent sb devsw cwd path with
  | none => pure none
  | some (dp, name) => do
    ilock sb dp
    match ← dirlookup sb devsw dp name with
    | some (ip, _) => do
      iunlockput sb dp
      ilock sb ip
      let entry ← inode ip
      if type = T_FILE ∧ entry.type = T_FILE then pure (some ip)
      else do
        iunlockput sb ip
        pure none
    | none => do
      let ip ← ialloc sb type
      ilock sb ip
      assign sb ip (.create major minor)
      createDots sb devsw type dp ip
      let entry ← inode ip
      let r ← dirlink sb devsw dp name entry.inum
      if r < 0 then panic .createDirlink
      else do
        iunlockput sb dp
        pure (some ip)

def sysSlink (cwd : CacheSlot) (old new : List Byte) : Call Int := do
  -- get inode of old file
  match ← namei sb devsw cwd old with
  | none => pure (-1)
  | some ip => do
    ilock sb ip
    let entry ← inode ip
    if entry.type = T_DIR then do
      iunlockput sb ip
      pure (-1)
    else do
      iunlock ip
      -- create inode which is symbolic link file in np
      match ← create sb devsw cwd new T_SYM 0 0 with
      | none => pure (-1)
      | some np => do
        assign sb np (.slink old)
        iunlockput sb np
        pure 0

/-- The string in `path`, which ends in the field or at its end. -/
def pathString (ip : Inode) : List Byte := (List.ofFn ip.path).takeWhile (· ≠ 0)

-- when file is symbolic type
def redirect (cwd : CacheSlot) : Nat → CacheSlot → Call (Option CacheSlot)
  | 0, ip => do
    let entry ← inode ip
    if entry.type = T_SYM then Code.fail .turns else pure (some ip)
  | turns + 1, ip => do
    let entry ← inode ip
    if entry.type = T_SYM then do
      -- re-open redirecting file
      match ← namei sb devsw cwd (pathString entry) with
      | none => do
        iunlockput sb ip
        pure none
      | some rp => do
        iunlockput sb ip
        ilock sb rp
        redirect cwd turns rp
    else pure (some ip)

/-- The inode that a call opens, locked. -/
def openable (omode : Nat) (ip : CacheSlot) : Call (Option CacheSlot) := do
  let entry ← inode ip
  if entry.type = T_DIR ∧ omode ≠ 0 then do
    iunlockput sb ip
    pure none
  else pure (some ip)

/-- `sys_open` up to `filealloc`, with so many turns of its loop. -/
def openInode (turns : Nat) (cwd : CacheSlot) (path : List Byte) (omode : Nat) :
    Call (Option CacheSlot) :=
  if omode &&& O_CREATE ≠ 0 then create sb devsw cwd path T_FILE 0 0
  else do
    match ← namei sb devsw cwd path with
    | none => pure none
    | some ip => do
      ilock sb ip
      match ← redirect sb devsw cwd turns ip with
      | none => pure none
      | some ip => openable sb omode ip

/-- `sys_lsopen` up to `filealloc`. -/
def lsopenInode (cwd : CacheSlot) (path : List Byte) (omode : Nat) : Call (Option CacheSlot) :=
  if omode &&& O_CREATE ≠ 0 then create sb devsw cwd path T_FILE 0 0
  else do
    match ← namei sb devsw cwd path with
    | none => pure none
    | some ip => do
      ilock sb ip
      openable sb omode ip

/-- `sys_mkdir` and `sys_mknod`. -/
def make (cwd : CacheSlot) (path : List Byte) (type major minor : BitVec 16) : Call Int := do
  match ← create sb devsw cwd path type major minor with
  | none => pure (-1)
  | some ip => do
    iunlockput sb ip
    pure 0

def sysMkdir (cwd : CacheSlot) (path : List Byte) : Call Int := make sb devsw cwd path T_DIR 0 0

def sysMknod (cwd : CacheSlot) (path : List Byte) (major minor : BitVec 16) : Call Int :=
  make sb devsw cwd path T_DEV major minor

/-- The directory that `sys_chdir` changes to. -/
def chdirInode (cwd : CacheSlot) (path : List Byte) : Call (Option CacheSlot) := do
  match ← namei sb devsw cwd path with
  | none => pure none
  | some ip => do
    ilock sb ip
    let entry ← inode ip
    if entry.type ≠ T_DIR then do
      iunlockput sb ip
      pure none
    else do
      iunlock ip
      iput sb cwd
      pure (some ip)

end Call

end Xv6.Fs
