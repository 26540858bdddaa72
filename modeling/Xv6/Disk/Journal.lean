import Xv6.Disk.Bcache

/-!
# The log on disk (project3/log.c:69-246)

The functions of log.c as one process runs them. The critical sections on
`struct log` are those of `Xv6.Log.Record`; a process that would sleep in
`begin_op` has nobody to wake it, which is `Prog.halt` like the panics.
-/

namespace Xv6.Disk
open Crash Buffer

/-! ### The header block -/

/-- What `write_head` makes of the header block. -/
def encodeHead (h : Block) (lh : List Nat) : Block :=
  setWords (setWord h 0 (BitVec.ofNat 32 lh.length)) 4 (lh.map (BitVec.ofNat 32))

/-- What `read_head` reads; `n` is an `int`. -/
def decodeHead (h : Block) : List Nat :=
  (List.range (getWord h 0).toInt.toNat).map fun i => (getWord h (4 + 4 * i)).toNat

theorem decodeHead_encodeHead (h : Block) (lh : List Nat) (hlen : lh.length ≤ LOGSIZE)
    (hlt : ∀ b ∈ lh, b < FSSIZE) : decodeHead (encodeHead h lh) = lh := by
  have hlen' : lh.length ≤ 90 := hlen
  have hn : getWord (encodeHead h lh) 0 = BitVec.ofNat 32 lh.length := by
    have hkeep : getWord (encodeHead h lh) 0
        = getWord (setWord h 0 (BitVec.ofNat 32 lh.length)) 0 :=
      getWord_congr _ fun i _ hi => byteAt_setWords _ _ _ (by omega)
    rw [hkeep]
    exact getWord_setWord _ _ _ (by unfold BSIZE; omega)
  have hint : (BitVec.ofNat 32 lh.length).toInt.toNat = lh.length := by
    rw [BitVec.toInt_eq_toNat_cond, BitVec.toNat_ofNat]
    split_ifs <;> omega
  apply List.ext_getElem
  · simp only [decodeHead, List.length_map, List.length_range, hn, hint]
  · intro k hk hk'
    simp only [decodeHead, List.getElem_map, List.getElem_range]
    have hw := getWord_setWords (setWord h 0 (BitVec.ofNat 32 lh.length)) 4
      (lh.map (BitVec.ofNat 32)) (by rw [List.length_map]; unfold BSIZE; omega) k
      (by rw [List.length_map]; exact hk')
    have hb := hlt lh[k] (List.getElem_mem hk')
    unfold FSSIZE at hb
    rw [encodeHead, hw, List.getElem_map, BitVec.toNat_ofNat]
    omega

/-! ### The functions of log.c -/

-- The loop of write_log() from `tail` on, with the entries that are left.
def writeLog (start : Nat) : Nat → List Nat → Prog Machine Unit
  | _, [] => pure ()
  | tail, b :: bs => do
    let dst ← bread (start + tail + 1)
    let src ← bread b
    let s ← Prog.get
    setData dst (s.buf src).data
    bwrite dst
    brelse src
    brelse dst
    writeLog start (tail + 1) bs

-- The loop of install_trans().
def installTrans (start : Nat) : Nat → List Nat → Prog Machine Unit
  | _, [] => pure ()
  | tail, b :: bs => do
    let lbuf ← bread (start + tail + 1)
    let dbuf ← bread b
    let s ← Prog.get
    setData dbuf (s.buf lbuf).data
    bwrite dbuf
    brelse lbuf
    brelse dbuf
    installTrans start (tail + 1) bs

def setLh (lh : List Nat) : Prog Machine Unit :=
  Prog.modify fun s => { s with log := { s.log with lh := lh } }

def readHead : Prog Machine Unit := do
  let s ← Prog.get
  let buf ← bread s.log.start
  let t ← Prog.get
  setLh (decodeHead (t.buf buf).data)
  brelse buf

def writeHead : Prog Machine Unit := do
  let s ← Prog.get
  let buf ← bread s.log.start
  let t ← Prog.get
  setData buf (encodeHead (t.buf buf).data t.log.lh)
  bwrite buf
  brelse buf

def recoverFromLog : Prog Machine Unit := do
  readHead
  let s ← Prog.get
  installTrans s.log.start 0 s.log.lh
  setLh []
  writeHead

def commit : Prog Machine Unit := do
  let s ← Prog.get
  if 0 < s.log.lh.length then do
    writeLog s.log.start 0 s.log.lh
    writeHead
    installTrans s.log.start 0 s.log.lh
    setLh []
    writeHead
  else pure ()

def setCommitting (c : Bool) : Prog Machine Unit :=
  Prog.modify fun s => { s with log := { s.log with committing := c } }

/-- `sync`; the lines around `commit` move the ghosts. -/
def sync : Prog Machine Nat := do
  let s ← Prog.get
  setCommitting true
  Prog.modify fun s => { s with committing := some s.logical }
  commit
  Prog.modify fun s => { s with durable := s.logical, committing := none }
  setCommitting false
  pure s.log.lh.length

def beginOp : Prog Machine Unit := do
  let s ← Prog.get
  if s.log.blocked then Prog.halt
  else
    Prog.modify fun s =>
      { s with log := { s.log with outstanding := s.log.outstanding + 1 } }

def endOp : Prog Machine Unit := do
  Prog.modify fun s => { s with log := s.log.ended }
  let s ← Prog.get
  match s.log.endOp with
  | .panic => Prog.halt
  | .commit =>
    let _ ← sync
    pure ()
  | .wakeup | .leaveOpen => pure ()

def logWrite (i : Fin NBUF) (b : Nat) : Prog Machine Unit := do
  let s ← Prog.get
  match s.log.writeCheck with
  | some _ => Prog.halt
  | none =>
    Prog.modify fun s =>
      { s with log := s.log.absorb b }.setBuf i { s.buf i with dirty := true }

/-! ### Operations -/

/-- The blocks of the log: header block `start` and `size - 1` log blocks. The
numbers are `sb.logstart` and `sb.nlog` of the superblock. -/
structure Area where
  start : Nat
  size : Nat
  pos : 0 < size
  fits : start + size ≤ FSSIZE

def Area.Home (A : Area) (b : Nat) : Prop := b < A.start ∨ A.start + A.size ≤ b

/-- What happens between `begin_op` and `end_op`: buffers of home blocks are read,
overwritten and logged, and released, where each step may depend on what was
read before. -/
inductive Body (A : Area) where
  | done
  | bread (b : Nat) (h : A.Home b) (k : Block → Body A)
  | logWrite (b : Nat) (h : A.Home b) (v : Block) (k : Body A)
  | brelse (b : Nat) (k : Body A)

/-- The contents after an operation, as if it ran alone on `σ`. -/
def Body.exec {A : Area} : Body A → (Nat → Block) → Nat → Block
  | .done, σ => σ
  | .bread b _ k, σ => (k (σ b)).exec σ
  | .logWrite b _ v k, σ => k.exec (Function.update σ b v)
  | .brelse _ k, σ => k.exec σ

/-- The buffer that `bread` returned for a block, and that is still held. -/
def Machine.held (s : Machine) (b : Nat) : Option (Fin NBUF) :=
  (s.cached b).filter fun i => (s.buf i).refcnt ≠ 0 ∧ (s.buf i).valid = true

def runBody {A : Area} : Body A → Prog Machine Unit
  | .done => pure ()
  | .bread b _ k => do
    let i ← Disk.bread b
    let s ← Prog.get
    runBody (k (s.buf i).data)
  | .logWrite b _ v k => do
    let s ← Prog.get
    match s.held b with
    | none => Prog.halt
    | some i =>
      setData i v
      Disk.logWrite i b
      runBody k
  | .brelse b k => do
    let s ← Prog.get
    match s.held b with
    | none => Prog.halt
    | some i =>
      Disk.brelse i
      runBody k

/-- A whole operation. The ghost line completes it before `end_op`. -/
def fsOp {A : Area} (op : Body A) : Prog Machine Unit := do
  beginOp
  runBody op
  Prog.modify fun s => { s with logical := op.exec s.logical }
  endOp

inductive Call (A : Area) where
  | op (body : Body A)
  | sync

def runCalls {A : Area} : List (Call A) → Prog Machine Unit
  | [] => pure ()
  | .op body :: calls => do
    fsOp body
    runCalls calls
  | .sync :: calls => do
    let _ ← sync
    runCalls calls

/-- The memory after `binit` and the first lines of `initlog`. -/
def Machine.powerOn (A : Area) (s : Machine) : Machine :=
  { s with
    buf := fun _ => ⟨none, false, false, 0, fun _ => 0⟩
    order := (List.finRange NBUF).reverse
    log := initlog A.start A.size }

/-- From power on to the end of the calls. After recovery the contents start anew
from what is on the disk. -/
def session {A : Area} (calls : List (Call A)) : Prog Machine Unit := do
  recoverFromLog
  Prog.modify fun s => { s with logical := s.disk, durable := s.disk, committing := none }
  runCalls calls

end Xv6.Disk
