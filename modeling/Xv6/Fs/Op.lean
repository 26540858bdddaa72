import Xv6.Disk.CrashSafe

/-!
# Code between begin_op and end_op

What the functions of fs.c do to the blocks: `bread`, an assignment to the data of a
held buffer with `log_write`, and `brelse`. `exec` runs such code on the contents that
the cache shows, `run` on the disk and the cache themselves, where it may also be
stopped by the cache or the log. `wp H W` says in addition that only blocks in `W`
are logged, and that a panic meets `H`; `run_spec` carries it over to the machine.
-/

namespace Xv6.Fs
open Disk

/-- What the buffer cache shows of the disk. -/
abbrev Contents := Nat → Block

/-- The panics of fs.c and file.c; `asleep` is a wait for a lock that the process holds
itself. -/
inductive Panic where
  | outOfBlocks
  | freeingFreeBlock
  | bmapOutOfRange
  | iallocNoInodes
  | igetNoInodes
  | ilock
  | ilockNoType
  | iunlock
  | asleep
  | dirlookupNotDir
  | dirlookupRead
  | dirlinkRead
  | dirlink
  | isdirempty
  | unlinkNlink
  | unlinkWritei
  | createDots
  | createDirlink
  | filedup
  | fileclose
  | initExiting
  deriving DecidableEq, Repr

inductive Op (α : Type) where
  | done (a : α)
  | panic (e : Panic)
  | bread (b : Nat) (k : Block → Op α)
  | logWrite (b : Nat) (f : Block → Block) (k : Op α)
  | brelse (b : Nat) (k : Op α)

namespace Op

variable {α β : Type}

def bind : Op α → (α → Op β) → Op β
  | done a, k => k a
  | panic e, _ => panic e
  | bread b q, k => bread b fun v => (q v).bind k
  | logWrite b f q, k => logWrite b f (q.bind k)
  | brelse b q, k => brelse b (q.bind k)

instance : Monad Op where
  pure := done
  bind := bind

def exec : Op α → Contents → Except Panic (α × Contents)
  | done a, σ => .ok (a, σ)
  | panic e, _ => .error e
  | bread b k, σ => (k (σ b)).exec σ
  | logWrite b f k, σ => k.exec (Function.update σ b (f (σ b)))
  | brelse _ k, σ => k.exec σ

def run : Op α → Crash.Prog Machine (Except Panic α)
  | done a => pure (.ok a)
  | panic e => pure (.error e)
  | bread b k => do
    let i ← Disk.bread b
    let s ← Crash.Prog.get
    (k (s.buf i).data).run
  | logWrite b f k => do
    let s ← Crash.Prog.get
    match s.held b with
    | none => Crash.Prog.halt
    | some i =>
      setData i (f (s.buf i).data)
      Disk.logWrite i b
      k.run
  | brelse b k => do
    let s ← Crash.Prog.get
    match s.held b with
    | none => Crash.Prog.halt
    | some i =>
      Disk.brelse i
      k.run

def wp (H : Panic → Prop) (W : Nat → Prop) : Op α → (α → Contents → Prop) → Contents → Prop
  | done a, post, σ => post a σ
  | panic e, _, _ => H e
  | bread b k, post, σ => (k (σ b)).wp H W post σ
  | logWrite b f k, post, σ => W b ∧ k.wp H W post (Function.update σ b (f (σ b)))
  | brelse _ k, post, σ => k.wp H W post σ

end Op

open Op

def bread (b : Nat) : Op Block := .bread b .done

def logWrite (b : Nat) (f : Block → Block) : Op Unit := .logWrite b f (.done ())

def brelse (b : Nat) : Op Unit := .brelse b (.done ())

/-! ### Rules -/

variable {α β : Type} {H : Panic → Prop} {W : Nat → Prop} {σ τ : Contents}
  {post : α → Contents → Prop}

theorem wp_pure {a : α} (h : post a σ) : (pure a : Op α).wp H W post σ := h

theorem wp_panic {e : Panic} (h : H e) : (Op.panic e : Op α).wp H W post σ := h

theorem wp_bread {b : Nat} {post : Block → Contents → Prop} (h : post (σ b) σ) :
    (bread b).wp H W post σ := h

theorem wp_brelse {b : Nat} {post : Unit → Contents → Prop} (h : post () σ) :
    (brelse b).wp H W post σ := h

theorem wp_logWrite {b : Nat} {f : Block → Block} {post : Unit → Contents → Prop} (hb : W b)
    (h : post () (Function.update σ b (f (σ b)))) : (logWrite b f).wp H W post σ := ⟨hb, h⟩

theorem wp_bind {p : Op α} {k : α → Op β} {post : β → Contents → Prop}
    (h : p.wp H W (fun a τ => (k a).wp H W post τ) σ) : (p >>= k).wp H W post σ := by
  show (p.bind k).wp H W post σ
  induction p generalizing σ with
  | done a => exact h
  | panic e => exact h
  | bread b q ih => exact ih _ h
  | logWrite b f q ih => exact ⟨h.1, ih h.2⟩
  | brelse b q ih => exact ih h

theorem wp_mono {p : Op α} {post' : α → Contents → Prop} (h : p.wp H W post σ)
    (himp : ∀ a τ, post a τ → post' a τ) : p.wp H W post' σ := by
  induction p generalizing σ with
  | done a => exact himp a σ h
  | panic e => exact h
  | bread b q ih => exact ih _ h
  | logWrite b f q ih => exact ⟨h.1, ih h.2⟩
  | brelse b q ih => exact ih h

/-- Sequencing with an intermediate assertion. -/
theorem wp_seq {p : Op α} {k : α → Op β} {m : α → Contents → Prop} {post : β → Contents → Prop}
    (h : p.wp H W m σ) (hk : ∀ a τ, m a τ → (k a).wp H W post τ) : (p >>= k).wp H W post σ :=
  wp_bind (wp_mono h hk)

theorem exec_of_wp {p : Op α} (h : p.wp H W post σ) :
    (∃ a τ, p.exec σ = .ok (a, τ) ∧ post a τ) ∨ ∃ e, p.exec σ = .error e ∧ H e := by
  induction p generalizing σ with
  | done a => exact Or.inl ⟨a, σ, rfl, h⟩
  | panic e => exact Or.inr ⟨e, rfl, h⟩
  | bread b q ih => exact ih _ h
  | logWrite b f q ih => exact ih h.2
  | brelse b q ih => exact ih h

theorem wp_result {p : Op α} (h : p.wp H W post σ) {a : α} (hp : p.exec σ = .ok (a, τ)) :
    post a τ := by
  rcases exec_of_wp h with ⟨a', τ', hp', hpost⟩ | ⟨e, he, -⟩
  · rw [hp] at hp'
    cases hp'
    exact hpost
  · rw [hp] at he
    cases he

theorem wp_total {p : Op α} (h : p.wp (fun _ => False) W post σ) :
    ∃ a τ, p.exec σ = .ok (a, τ) ∧ post a τ := by
  rcases exec_of_wp h with h | ⟨_, -, hF⟩
  · exact h
  · exact hF.elim

/-- On a machine whose cache shows `σ`, code that logs home blocks only either is
stopped by the cache or the log, or has the outcome it has on `σ`. It never writes
to the disk. -/
theorem run_spec {A : Area} {C : Machine → Prop} {p : Op α} {s : Machine}
    (hW : ∀ b, W b → A.Home b) (hs : LogInv A s σ) (h : p.wp H W post σ) :
    Crash.wp True C p.run (fun r t => t.disk = s.disk ∧ match r with
      | .ok a => ∃ τ, p.exec σ = .ok (a, τ) ∧ post a τ ∧ LogInv A t τ
      | .error e => p.exec σ = .error e ∧ H e) s := by
  induction p generalizing s σ with
  | done a => exact Crash.wp_pure ⟨rfl, σ, rfl, h, hs⟩
  | panic e => exact Crash.wp_pure ⟨rfl, rfl, h⟩
  | bread b k ih =>
    refine Crash.wp_seq (bread_spec hs.sees (Or.inl trivial)) fun i t hr => ?_
    refine Crash.wp_bind (Crash.wp_get ?_)
    rw [hr.data, ← hr.disk]
    exact ih (σ b) (hs.read hr) h
  | logWrite b f k ih =>
    refine Crash.wp_bind (Crash.wp_get ?_)
    cases hheld : s.held b with
    | none => exact Crash.wp_halt trivial
    | some i =>
      obtain ⟨hi, hv⟩ := Machine.held_spec hheld
      have hdata := hs.sees.buf i b hi hv
      dsimp only
      rw [hdata]
      exact overwriteLog_spec hs (hW b h.1) hi hv (Or.inl trivial) fun hl => ih hl h.2
  | brelse b k ih =>
    refine Crash.wp_bind (Crash.wp_get ?_)
    cases hheld : s.held b with
    | none => exact Crash.wp_halt trivial
    | some i =>
      rw [← Machine.released_disk s i]
      exact Crash.wp_bind (brelse_spec (ih (hs.released i) h))

theorem wp_bread_iff {b : Nat} {k : Block → Op α} :
    (Op.bread b k).wp H W post σ ↔ (k (σ b)).wp H W post σ := Iff.rfl

theorem wp_logWrite_iff {b : Nat} {f : Block → Block} {k : Op α} :
    (Op.logWrite b f k).wp H W post σ ↔ W b ∧ k.wp H W post (Function.update σ b (f (σ b))) :=
  Iff.rfl

theorem wp_brelse_iff {b : Nat} {k : Op α} :
    (Op.brelse b k).wp H W post σ ↔ k.wp H W post σ := Iff.rfl

-- Only the rules above look into `wp`.
attribute [irreducible] Op.wp

end Xv6.Fs
