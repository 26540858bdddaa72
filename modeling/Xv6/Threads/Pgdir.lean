import Xv6.Threads.Setup

/-!
# The lifetime of page directories

The threads of a process share a page directory without counting it. `wait` frees that
of the slot it reaps, a thread's too (proc.c:338-352), and `exec` the old one of its caller
(exec.c:105); `thread_join` and `cleanthread` free none.
-/

namespace Xv6.Threads

open Mlfq (NPROC Slot Procstate)
open Transition

/-- A slot that has started has the page directory `pd`, or a thread has it in `fork` or in
`exec` and will give it to a slot or free it. -/
inductive Kept (s : State) (pd : Nat) : Prop where
  | started (q : Slot) (h : s.started q) (hp : (s.proc q).pgdir = some pd)
  | forking (j q : Slot) (st : ForkStage) (h : s.pc j = .fork q st) (hst : st ≠ .pgdir)
      (hp : (s.proc q).pgdir = some pd)
  | exec (i : Slot) (st : ExecStage) (h : s.pc i = .exec pd st)

/-- No page directory in use is lost; and one that is freed is in use, and no other slot in
use has it. -/
structure PgdirLaw (s : State) (a : Action) : Prop where
  kept : ∀ pd, s.vm pd = true → Kept s pd
  wait : ∀ i p pd, a = .wait i → s.waitFor i = some p → (s.proc p).pgdir = some pd →
    s.vm pd = true ∧ ∀ q, q ≠ p → (s.proc q).state ≠ .unused → (s.proc q).pgdir ≠ some pd
  thread : ∀ i p, a = .wait i → s.waitFor i = some p → (s.proc p).tid ≠ 0 →
    ∀ q, (s.proc q).phase = .alive → (s.proc q).pid ≠ (s.proc p).pid
  exec : ∀ i oldpgdir, a = .execFree i → s.pc i = .exec oldpgdir .free →
    s.vm oldpgdir = true ∧
      ∀ q, q ≠ i → (s.proc q).state ≠ .unused → (s.proc q).pgdir ≠ some oldpgdir

/-- What a thread at its place does with page directories. -/
inductive Role where
  | none
  | waiting (np : Slot)
  | creating (np : Slot)
  | image (pd : Nat)
  | old (pd : Nat)
  deriving DecidableEq

/-- `waiting` is before the new slot gets its page directory, `creating` is in
`thread_create` after that, but before the new slot gets its pid. -/
def Pc.role : Pc → Role
  | .fork np .pgdir => .waiting np
  | .thread np _ .pgdir => .waiting np
  | .thread np _ st => if st.hasPid then .none else .creating np
  | .exec pd .free => .old pd
  | .exec pd _ => .image pd
  | _ => .none

/-- The slot that waits for its page directory. -/
def Role.awaiting : Role → Option Slot
  | waiting np => some np
  | _ => .none

/-- Another slot has the pid of slot `p`. -/
def State.fellow (s : State) (p q : Slot) : Prop :=
  q ≠ p ∧ (s.started q ∨ (s.proc q).pid ≠ 0) ∧ (s.proc q).pid = (s.proc p).pid

instance (s : State) (p q : Slot) : Decidable (s.fellow p q) :=
  inferInstanceAs (Decidable (_ ∧ _ ∧ _))

/-- The slot `p` is the last one of its process. -/
def State.last (s : State) (p : Slot) : Prop := ∀ q, ¬ s.fellow p q

instance (s : State) (p : Slot) : Decidable (s.last p) := inferInstanceAs (Decidable (∀ _, _))

/-- No slot that waits for its page directory still has the number `pd` from an earlier use. -/
def State.forgotten (s : State) (pd : Option Nat) : Prop :=
  ∀ j, ((s.pc j).role.awaiting.all fun q => (s.proc q).pgdir ≠ pd) = true

instance (s : State) (pd : Option Nat) : Decidable (s.forgotten pd) :=
  inferInstanceAs (Decidable (∀ _, _))

/-- Neither in `fork` or `exec`, nor in `thread_create` before the new slot has its pid. -/
def Pc.settled : Pc → Bool
  | .fork _ _ | .exec _ _ => false
  | .thread _ _ st => st.hasPid
  | _ => true

/-- `wait` reaps and `exec` commits for the last slot of a process only, `thread_join` leaves
one, `thread_create` copies the page directory of its own process, and `exit` and
`cleanforexec` take no thread out of use that has a page directory in hand. -/
def pgdirOk (s : State) : Action → Bool
  | .wait i => (s.waitFor i).all fun p => s.last p ∧ s.forgotten (s.proc p).pgdir
  | .threadJoin _ thread =>
    (s.joinFor thread).all fun p => ∃ q, q ≠ p ∧ s.started q ∧ (s.proc q).pid = (s.proc p).pid
  | .execCommit i _ => s.last i
  | .execFree i =>
    match s.pc i with
    | .exec oldpgdir .free => s.forgotten (some oldpgdir)
    | _ => true
  | .threadNext i _ =>
    match s.pc i with
    | .thread _ main .pgdir => s.started main ∧ (s.proc main).pid = (s.proc i).pid
    | _ => true
  | a => ∀ q, s.frees a q = true → (s.pc q).settled = true

def PgdirOk (s : State) (a : Action) : Prop := idsOk s a = true ∧ pgdirOk s a = true

instance (s : State) (a : Action) : Decidable (PgdirOk s a) :=
  inferInstanceAs (Decidable (_ ∧ _))

/-! ### Who holds a page directory -/

/-- A page directory belongs to a process, or to one slot of `fork` or one call of `exec` as
long as nobody else knows it or when nobody else has it any more. -/
inductive Owner where
  | process (pid : Int)
  | slot (q : Slot)
  | image (i : Slot)
  | former (i : Slot)
  deriving DecidableEq

/-- A slot or a local variable of `exec` has the page directory `pd`, on behalf of an owner. -/
inductive Holds (s : State) (pd : Nat) : Owner → Prop where
  | started (q : Slot) (h : s.started q) (hp : (s.proc q).pgdir = some pd) :
      Holds s pd (.process (s.proc q).pid)
  | named (q : Slot) (h : (s.proc q).phase = .embryo) (h0 : (s.proc q).pid ≠ 0)
      (hp : (s.proc q).pgdir = some pd) : Holds s pd (.process (s.proc q).pid)
  | creating (j q : Slot) (h : (s.pc j).role = .creating q) (hp : (s.proc q).pgdir = some pd) :
      Holds s pd (.process (s.proc j).pid)
  | forking (q : Slot) (h : (s.proc q).phase = .embryo) (h0 : (s.proc q).pid = 0)
      (hw : ∀ j, (s.pc j).role ≠ .waiting q ∧ (s.pc j).role ≠ .creating q)
      (hp : (s.proc q).pgdir = some pd) : Holds s pd (.slot q)
  | image (i : Slot) (h : (s.pc i).role = .image pd) : Holds s pd (.image i)
  | old (i : Slot) (h : (s.pc i).role = .old pd) : Holds s pd (.former i)

/-- Every page directory that is held is in use and has one owner, and a process owns one. -/
structure PgdirInv (s : State) : Prop where
  owned : ∃ g : Nat → Owner, ∀ pd k, Holds s pd k → g pd = k
  single : ∃ m : Int → Nat, ∀ pd n, Holds s pd (.process n) → m n = pd
  used : ∀ pd k, Holds s pd k → s.vm pd = true

section Steps

variable {s t : State} {a : Action}

/-- The slot is of the same kind, or has started or ended since. -/
structure Near (s t : State) (q : Slot) : Prop where
  started : t.started q → s.started q
  embryo : (t.proc q).phase = .embryo → (s.proc q).phase = .embryo
  pid : (t.proc q).pid = (s.proc q).pid
  pgdir : (t.proc q).pgdir = (s.proc q).pgdir

/-- The holders among the slots in `E` and the threads in `R`. -/
inductive Odd (t : State) (E R : Slot → Prop) (pd : Nat) : Owner → Prop where
  | slot (q : Slot) (hE : E q) (hp : (t.proc q).pgdir = some pd)
      (h : t.started q ∨ (t.proc q).phase = .embryo ∧ (t.proc q).pid ≠ 0) :
      Odd t E R pd (.process (t.proc q).pid)
  | creating (j q : Slot) (hR : R j) (h : (t.pc j).role = .creating q)
      (hp : (t.proc q).pgdir = some pd) : Odd t E R pd (.process (t.proc j).pid)
  | forking (q : Slot) (hE : E q) (h : (t.proc q).phase = .embryo) (h0 : (t.proc q).pid = 0)
      (hw : ∀ j, (t.pc j).role ≠ .waiting q ∧ (t.pc j).role ≠ .creating q)
      (hp : (t.proc q).pgdir = some pd) : Odd t E R pd (.slot q)
  | image (i : Slot) (hR : R i) (h : (t.pc i).role = .image pd) : Odd t E R pd (.image i)
  | old (i : Slot) (hR : R i) (h : (t.pc i).role = .old pd) : Odd t E R pd (.former i)

/-- What changes with the step, apart from the slots in `E` and the threads in `R`. -/
structure Framed (s t : State) (E R : Slot → Prop) : Prop where
  slot : ∀ q, ¬ E q → (t.proc q).phase ≠ .unused → Near s t q
  role : ∀ j, ¬ R j → (t.pc j).role = (s.pc j).role ∨
    (t.pc j).role = .none ∧ ∀ q, (s.pc j).role ≠ .waiting q ∧ (s.pc j).role ≠ .creating q
  quiet : ∀ q, E q → R q ∨ (s.proc q).phase ≠ .alive
  own : ∀ j q, R j → (s.pc j).role = .waiting q ∨ (s.pc j).role = .creating q → E q
  other : ∀ j q, ¬ R j → E q → (s.pc j).role ≠ .creating q

theorem Pc.owns_of_role {k : Pc} {q : Slot} (h : k.role = .waiting q ∨ k.role = .creating q) :
    k.owns = some q := by
  cases k with
  | fork np st =>
    cases st <;> rcases h with h | h <;> cases h
    rfl
  | thread np main st =>
    cases st <;> rcases h with h | h <;> cases h <;> rfl
  | exec pd st => cases st <;> rcases h with h | h <;> cases h
  | _ => rcases h with h | h <;> cases h

theorem Sound.alive_of_role (hs : Sound s) {j : Slot} {r : Role} (h : (s.pc j).role = r)
    (hr : r ≠ .none) : (s.proc j).phase = .alive := by
  refine hs.busy j fun hu => hr ?_
  rw [← h, hu]
  rfl

section Framed

variable {E R : Slot → Prop}

theorem Framed.role_of (hf : Framed s t E R) {j : Slot} {r : Role} (hR : ¬ R j)
    (h : (t.pc j).role = r) (hr : r ≠ .none) : (s.pc j).role = r := by
  rcases hf.role j hR with hj | ⟨hj, -⟩
  · exact hj.symm.trans h
  · exact absurd (h.symm.trans hj) hr

theorem Framed.near (hs : Sound s) (hst : Sound t) (hf : Framed s t E R) {j : Slot} {r : Role}
    (hR : ¬ R j) (h : (t.pc j).role = r) (hr : r ≠ .none) : Near s t j := by
  have halive := hs.alive_of_role (hf.role_of hR h hr) hr
  refine hf.slot j (fun hE => ?_) (by rw [hst.alive_of_role h hr]; exact nofun)
  rcases hf.quiet j hE with hj | hj
  · exact hR hj
  · exact hj halive

/-- A page directory that is held after a step was held before it, by the same owner. -/
theorem Framed.holds (hs : Sound s) (hst : Sound t) (hf : Framed s t E R) {pd : Nat} {k : Owner}
    (h : Holds t pd k) : Holds s pd k ∨ Odd t E R pd k := by
  cases h with
  | started q h hp =>
    by_cases hE : E q
    · exact Or.inr (.slot q hE hp (Or.inl h))
    · have hn := hf.slot q hE fun hu => not_started hu (Or.inl rfl) h
      rw [hn.pid]
      exact Or.inl (.started q (hn.started h) (hn.pgdir.symm.trans hp))
  | named q h h0 hp =>
    by_cases hE : E q
    · exact Or.inr (.slot q hE hp (Or.inr ⟨h, h0⟩))
    · have hn := hf.slot q hE (by rw [h]; exact nofun)
      rw [hn.pid] at h0 ⊢
      exact Or.inl (.named q (hn.embryo h) h0 (hn.pgdir.symm.trans hp))
  | creating j q h hp =>
    by_cases hR : R j
    · exact Or.inr (.creating j q hR h hp)
    · have hj := hf.role_of hR h nofun
      have hq := hst.embryo (Pc.owns_of_role (Or.inr h))
      have hn := hf.slot q (fun hE => hf.other j q hR hE hj) (by rw [hq]; exact nofun)
      rw [(hf.near hs hst hR h nofun).pid]
      exact Or.inl (.creating j q hj (hn.pgdir.symm.trans hp))
  | forking q h h0 hw hp =>
    by_cases hE : E q
    · exact Or.inr (.forking q hE h h0 hw hp)
    · have hn := hf.slot q hE (by rw [h]; exact nofun)
      refine Or.inl (.forking q (hn.embryo h) (hn.pid.symm.trans h0) (fun j => ?_)
        (hn.pgdir.symm.trans hp))
      by_cases hR : R j
      · exact ⟨fun hj => hE (hf.own j q hR (Or.inl hj)), fun hj => hE (hf.own j q hR (Or.inr hj))⟩
      · rcases hf.role j hR with hj | ⟨-, hj⟩
        · rw [← hj]
          exact hw j
        · exact hj q
  | image i h =>
    by_cases hR : R i
    · exact Or.inr (.image i hR h)
    · exact Or.inl (.image i (hf.role_of hR h nofun))
  | old i h =>
    by_cases hR : R i
    · exact Or.inr (.old i hR h)
    · exact Or.inl (.old i (hf.role_of hR h nofun))

end Framed

/-- No slot and no thread is different in kind. -/
def Nobody (_ : Slot) : Prop := False

theorem framed_nobody (hslot : ∀ q, (t.proc q).phase ≠ .unused → Near s t q)
    (hrole : ∀ j, (t.pc j).role = (s.pc j).role ∨
      (t.pc j).role = .none ∧ ∀ q, (s.pc j).role ≠ .waiting q ∧ (s.pc j).role ≠ .creating q) :
    Framed s t Nobody Nobody :=
  ⟨fun q _ => hslot q, fun j _ => hrole j, nofun, nofun, nofun⟩

theorem odd_nobody {pd : Nat} {k : Owner} (h : Odd t Nobody Nobody pd k) : False := by
  cases h <;> assumption

theorem Framed.holds_nobody (hs : Sound s) (hst : Sound t) (hf : Framed s t Nobody Nobody)
    {pd : Nat} {k : Owner} (h : Holds t pd k) : Holds s pd k :=
  (hf.holds hs hst h).resolve_right odd_nobody

theorem PgdirInv.mono (hi : PgdirInv s) (hh : ∀ pd k, Holds t pd k → Holds s pd k)
    (hvm : ∀ pd k, Holds t pd k → s.vm pd = true → t.vm pd = true) : PgdirInv t := by
  obtain ⟨g, hg⟩ := hi.owned
  obtain ⟨m, hm⟩ := hi.single
  exact ⟨⟨g, fun pd k h => hg pd k (hh pd k h)⟩, ⟨m, fun pd n h => hm pd n (hh pd _ h)⟩,
    fun pd k h => hvm pd k h (hi.used pd k (hh pd k h))⟩

/-- One page directory gets another owner. -/
theorem PgdirInv.assign (hi : PgdirInv s) (pd' : Nat) (k' : Owner)
    (hh : ∀ pd k, Holds t pd k → pd = pd' ∧ k = k' ∨ pd ≠ pd' ∧ k ≠ k' ∧ Holds s pd k)
    (hvm : ∀ pd k, Holds t pd k → pd = pd' ∨ s.vm pd = true → t.vm pd = true) :
    PgdirInv t := by
  obtain ⟨g, hg⟩ := hi.owned
  obtain ⟨m, hm⟩ := hi.single
  refine ⟨⟨Function.update g pd' k', fun pd k h => ?_⟩,
    ⟨fun n => if k' = .process n then pd' else m n, fun pd n h => ?_⟩, fun pd k h => ?_⟩
  · rw [Function.update_apply]
    rcases hh pd k h with ⟨hpd, hk⟩ | ⟨hpd, -, hs⟩
    · rw [if_pos hpd, hk]
    · rw [if_neg hpd, hg pd k hs]
  · dsimp only
    rcases hh pd _ h with ⟨hpd, hk⟩ | ⟨-, hk, hs⟩
    · rw [if_pos hk.symm, hpd]
    · rw [if_neg (Ne.symm hk), hm pd n hs]
  · refine hvm pd k h ?_
    rcases hh pd k h with ⟨hpd, -⟩ | ⟨-, -, hs⟩
    · exact Or.inl hpd
    · exact Or.inr (hi.used pd k hs)

theorem pgdirInv_nobody (hs : Sound s) (hst : Sound t) (hi : PgdirInv s)
    (hf : Framed s t Nobody Nobody) (hvm : t.vm = s.vm) : PgdirInv t :=
  hi.mono (fun _ _ h => hf.holds_nobody hs hst h) fun _ _ _ h => by rw [hvm]; exact h

/-! ### What is freed -/

/-- A slot in use that has a page directory of its own has it on behalf of its process, or for
itself alone. -/
theorem holds_of_used (hs : Sound s) {q : Slot} {pd : Nat} (hl : s.forgotten (some pd))
    (hq : (s.proc q).phase ≠ .unused) (hpd : (s.proc q).pgdir = some pd) :
    Holds s pd (.slot q) ∨
      ∃ r, Holds s pd (.process (s.proc r).pid) ∧ (s.started r ∨ (s.proc r).pid ≠ 0) ∧
        (r = q ∨ (s.pc r).role = .creating q) := by
  cases hph : (s.proc q).phase with
  | unused => exact absurd hph hq
  | alive => exact Or.inr ⟨q, .started q (Or.inl hph) hpd, Or.inl (Or.inl hph), Or.inl rfl⟩
  | zombie => exact Or.inr ⟨q, .started q (Or.inr hph) hpd, Or.inl (Or.inr hph), Or.inl rfl⟩
  | embryo =>
    by_cases h0 : (s.proc q).pid = 0
    · by_cases hc : ∃ j, (s.pc j).role = .creating q
      · obtain ⟨j, hj⟩ := hc
        have halive := hs.alive_of_role hj nofun
        exact Or.inr ⟨j, .creating j q hj hpd, Or.inl (Or.inl halive), Or.inr hj⟩
      · refine Or.inl (.forking q hph h0 (fun j => ⟨fun hj => ?_, fun hj => hc ⟨j, hj⟩⟩) hpd)
        have hne := hl j
        rw [hj] at hne
        exact of_decide_eq_true hne hpd
    · exact Or.inr ⟨q, .named q hph h0 hpd, Or.inr h0, Or.inl rfl⟩

/-- The last slot of a process is the only one with its page directory. -/
theorem PgdirInv.last (hs : Sound s) (hi : PgdirInv s) {p q : Slot} {pd : Nat}
    (hp : Holds s pd (.process (s.proc p).pid)) (hl : s.last p) (hfg : s.forgotten (some pd))
    (hcr : ∀ q, (s.pc p).role ≠ .creating q) (hqp : q ≠ p) (hq : (s.proc q).phase ≠ .unused) :
    (s.proc q).pgdir ≠ some pd := by
  intro hpd
  obtain ⟨g, hg⟩ := hi.owned
  rcases holds_of_used hs hfg hq hpd with hslot | ⟨r, hr, hused, hrq⟩
  · exact Owner.noConfusion ((hg pd _ hslot).symm.trans (hg pd _ hp))
  · have hpid : (s.proc r).pid = (s.proc p).pid :=
      Owner.process.inj ((hg pd _ hr).symm.trans (hg pd _ hp))
    refine hl r ⟨?_, hused, hpid⟩
    rintro rfl
    rcases hrq with hrq | hrq
    · exact hqp hrq.symm
    · exact hcr q hrq

/-- No slot has the page directory that `exec` is about to free. -/
theorem PgdirInv.former (hs : Sound s) (hi : PgdirInv s) {i q : Slot} {pd : Nat}
    (hrole : (s.pc i).role = .old pd) (hfg : s.forgotten (some pd))
    (hq : (s.proc q).phase ≠ .unused) : (s.proc q).pgdir ≠ some pd := by
  intro hpd
  obtain ⟨g, hg⟩ := hi.owned
  have hp := hg pd _ (.old i hrole)
  rcases holds_of_used hs hfg hq hpd with hslot | ⟨r, hr, -, -⟩
  · exact Owner.noConfusion ((hg pd _ hslot).symm.trans hp)
  · exact Owner.noConfusion ((hg pd _ hr).symm.trans hp)

/-- Nobody has a page directory after it is freed. -/
theorem PgdirInv.freed (hs : Sound s) (hst : Sound t) (hi : PgdirInv s)
    (hf : Framed s t Nobody Nobody) {pd : Nat} {k₀ : Owner} (hp : Holds s pd k₀)
    (himage : ∀ i, k₀ ≠ .image i) (hold : ∀ i, k₀ = .former i → (t.pc i).role ≠ .old pd)
    (hgone : ∀ q, (t.proc q).phase ≠ .unused → (t.proc q).pgdir ≠ some pd) {k : Owner}
    (h : Holds t pd k) : False := by
  obtain ⟨g, hg⟩ := hi.owned
  have hk : k = k₀ := (hg pd k (hf.holds_nobody hs hst h)).symm.trans (hg pd _ hp)
  cases h with
  | started q h hpd => exact hgone q (fun hu => not_started hu (Or.inl rfl) h) hpd
  | named q h h0 hpd => exact hgone q (by rw [h]; exact nofun) hpd
  | creating j q h hpd =>
    exact hgone q (by rw [hst.embryo (Pc.owns_of_role (Or.inr h))]; exact nofun) hpd
  | forking q h h0 hw hpd => exact hgone q (by rw [h]; exact nofun) hpd
  | image i h => exact himage i hk.symm
  | old i h => exact hold i hk.symm h

/-- A slot in use was in use before, with the same page directory. -/
theorem Framed.used (hf : Framed s t Nobody Nobody) {q : Slot} (hq : (t.proc q).phase ≠ .unused) :
    (s.proc q).phase ≠ .unused ∧ (t.proc q).pgdir = (s.proc q).pgdir := by
  have hn := hf.slot q nofun hq
  refine ⟨fun hu => ?_, hn.pgdir⟩
  cases hph : (t.proc q).phase with
  | unused => exact hq hph
  | embryo => exact Phase.noConfusion (hu.symm.trans (hn.embryo hph))
  | alive => exact not_started hu (Or.inl rfl) (hn.started (Or.inl hph))
  | zombie => exact not_started hu (Or.inl rfl) (hn.started (Or.inr hph))

theorem PgdirOk.last_wait {i p : Slot} (hok : PgdirOk s (.wait i)) (hw : s.waitFor i = some p) :
    s.last p ∧ s.forgotten (s.proc p).pgdir := by
  have h := hok.2
  unfold pgdirOk at h
  dsimp only at h
  rw [hw] at h
  exact of_decide_eq_true h

theorem PgdirOk.forgotten {i : Slot} {oldpgdir : Nat} (hok : PgdirOk s (.execFree i))
    (hpc : s.pc i = .exec oldpgdir .free) : s.forgotten (some oldpgdir) := by
  have h := hok.2
  unfold pgdirOk at h
  dsimp only at h
  rw [hpc] at h
  exact of_decide_eq_true h

theorem Sound.role_of_zombie (hs : Sound s) {p : Slot} (hp : (s.proc p).phase = .zombie) :
    (s.pc p).role = .none := by
  by_contra hr
  exact Phase.noConfusion (hp.symm.trans (hs.alive_of_role rfl hr))

/-! ### The steps -/

theorem Proc.Same.near {q : Slot} (h : (s.proc q).Same (t.proc q)) : Near s t q :=
  ⟨started_of_phase h.phase, fun he => h.phase.symm.trans he, h.pid, h.pgdir⟩

theorem near_of_eq {q : Slot} (h : t.proc q = s.proc q) : Near s t q :=
  Proc.Same.near (by rw [h]; exact .refl _)

theorem near_fields {u : State} {p i q : Slot} {f : Proc → Proc} {k : Pc} (hu : u.proc = s.proc)
    (hph : (f (s.proc p)).phase = (s.proc p).phase) (hpid : (f (s.proc p)).pid = (s.proc p).pid)
    (hpd : (f (s.proc p)).pgdir = (s.proc p).pgdir) : Near s ((u.setProc p f).setPc i k) q := by
  by_cases hq : q = p
  · have hp : ((u.setProc p f).setPc i k).proc q = f (s.proc p) := by
      rw [hq, State.setPc_proc, State.setProc_proc_self, hu]
    refine ⟨started_of_phase ?_, fun he => ?_, ?_, ?_⟩
    · rw [hp, hph, hq]
    · rw [hp, hph] at he
      rw [hq]
      exact he
    · rw [hp, hpid, hq]
    · rw [hp, hpd, hq]
  · exact near_of_eq (setUp_proc hu hq)

theorem near_setSz {p i q : Slot} {sz : Nat} {k : Pc} :
    Near s ((s.setProc p fun r => { r with sz := sz }).setPc i k) q := near_fields rfl rfl rfl rfl

theorem Pc.role_of_plain {k : Pc} (h : k.plain) : k.role = .none := by
  cases k <;> first | rfl | cases h

theorem role_setPc {u : State} {i j : Slot} {k : Pc} (hu : u.pc = s.pc)
    (hk : k.role = (s.pc i).role) : ((u.setPc i k).pc j).role = (s.pc j).role := by
  rw [State.setPc_pc]
  split_ifs with hj
  · rw [hj, hk]
  · rw [hu]

theorem framed_setPc {u : State} {i : Slot} {k : Pc} (hpc : u.pc = s.pc)
    (hk : k.role = (s.pc i).role) (hslot : ∀ q, Near s (u.setPc i k) q) :
    Framed s (u.setPc i k) Nobody Nobody :=
  framed_nobody (fun q _ => hslot q) fun _ => Or.inl (role_setPc hpc hk)

theorem framed_kept (h : Keeps s t) (hpc : Moves s t) : Framed s t Nobody Nobody := by
  refine framed_nobody (fun q _ => (h.proc q).near) fun j => Or.inl ?_
  rcases hpc j with hj | hm | ⟨-, pd, ip, hj, hjt⟩
  · rw [hj]
  · rw [Pc.role_of_plain hm.before, Pc.role_of_plain hm.after]
  · rw [hj, hjt]
    rfl

/-- The thread `i` sets up the slot `np`, or gives it back. -/
theorem framed_setUp {u : State} {i np : Slot} {f : Proc → Proc} {k : Pc}
    (hu : u.proc = s.proc) (hpc : u.pc = s.pc) (hnp : (s.proc np).phase ≠ .alive)
    (hown : ∀ q, (s.pc i).role = .waiting q ∨ (s.pc i).role = .creating q → q = np)
    (hother : ∀ j, j ≠ i → (s.pc j).role ≠ .creating np) :
    Framed s ((u.setProc np f).setPc i k) (fun q => q = np) (fun j => j = i) := by
  refine ⟨fun q hq _ => near_of_eq (setUp_proc hu hq), fun j hj => Or.inl ?_, fun q hq => ?_,
    fun j q hj h => ?_, fun j q hj hq => ?_⟩
  · rw [State.setPc_pc, if_neg hj]
    exact congrArg Pc.role (congrFun hpc j)
  · rw [hq]
    exact Or.inr hnp
  · rw [hj] at h
    exact hown q h
  · rw [hq]
    exact hother j hj

/-- The same for a slot that the thread is setting up already. -/
theorem framed_own (hs : Sound s) {u : State} {i np : Slot} {f : Proc → Proc} {k : Pc}
    (hu : u.proc = s.proc) (hpc : u.pc = s.pc) (hown : (s.pc i).owns = some np) :
    Framed s ((u.setProc np f).setPc i k) (fun q => q = np) (fun j => j = i) := by
  refine framed_setUp hu hpc (by rw [hs.embryo hown]; decide) (fun q h => ?_)
    fun j hj h => hj (hs.owner (Pc.owns_of_role (Or.inr h)) hown)
  exact Option.some.inj ((Pc.owns_of_role h).symm.trans hown)

/-- Where the thread `i` is at no place that matters, only its slot `np` is left. -/
theorem Odd.own {np i : Slot} {pd : Nat} {k : Owner}
    (h : Odd t (fun q => q = np) (fun j => j = i) pd k)
    (hrole : (t.pc i).role = .none ∨ (t.pc i).role = .waiting np) :
    (t.proc np).pgdir = some pd ∧
      ((t.started np ∨ (t.proc np).phase = .embryo ∧ (t.proc np).pid ≠ 0) ∧
          k = .process (t.proc np).pid ∨
        (t.proc np).phase = .embryo ∧ (t.proc np).pid = 0 ∧ (t.pc i).role ≠ .waiting np ∧
          k = .slot np) := by
  have hno : ∀ {j r}, j = i → (t.pc j).role = r → r ≠ .none → r ≠ .waiting np → False := by
    rintro j r rfl hr h0 hw
    rcases hrole with hrole | hrole
    · exact h0 (hr.symm.trans hrole)
    · exact hw (hr.symm.trans hrole)
  cases h with
  | slot q hE hp h =>
    subst hE
    exact ⟨hp, Or.inl ⟨h, rfl⟩⟩
  | creating j q hR h hp => exact (hno hR h Role.noConfusion Role.noConfusion).elim
  | forking q hE h h0 hw hp =>
    subst hE
    exact ⟨hp, Or.inr ⟨h, h0, (hw i).1, rfl⟩⟩
  | image j hR h => exact (hno hR h Role.noConfusion Role.noConfusion).elim
  | old j hR h => exact (hno hR h Role.noConfusion Role.noConfusion).elim

theorem pgdirInv_alloc (hs : Sound s) (hi : PgdirInv s) {i np : Slot} {k : Pc}
    (hpc : s.pc i = .user) (hnp : (s.proc np).state = .unused) (hk : k.role = .waiting np)
    (hst : Sound ((s.setProc np fun r => { r with state := .embryo }).setPc i k)) :
    PgdirInv ((s.setProc np fun r => { r with state := .embryo }).setPc i k) := by
  have hunused := Proc.phase_unused.mpr hnp
  have hf : Framed s ((s.setProc np fun r => { r with state := .embryo }).setPc i k)
      (fun q => q = np) (fun j => j = i) := by
    refine framed_setUp rfl rfl (by rw [hunused]; decide) (fun q h => ?_) fun j _ h => ?_
    · rw [hpc] at h
      rcases h with h | h <;> cases h
    · exact Phase.noConfusion (hunused.symm.trans (hs.embryo (Pc.owns_of_role (Or.inr h))))
  have hrole : (((s.setProc np fun r => { r with state := .embryo }).setPc i k).pc i).role =
      .waiting np := by
    rw [State.setPc_pc, if_pos rfl, hk]
  refine hi.mono (fun pd k' h => ?_) fun _ _ _ h => h
  refine (hf.holds hs hst h).resolve_right fun hodd => ?_
  obtain ⟨-, ⟨hph, -⟩ | ⟨-, -, hw, -⟩⟩ := hodd.own (Or.inr hrole)
  · have hpid : (s.proc np).pid = 0 := hs.base.pids.freePid np hunused
    rcases hph with hph | ⟨-, hph⟩
    · refine not_started ?_ (Or.inr rfl) hph
      rw [State.setPc_proc, State.setProc_proc_self]
      rfl
    · rw [State.setPc_proc, State.setProc_proc_self] at hph
      exact hph hpid
  · exact hw hrole

theorem pgdirInv_abort (hs : Sound s) (hi : PgdirInv s) {i np : Slot} {pgdir : Option Nat}
    (hown : (s.pc i).owns = some np)
    (hst : Sound ((s.setProc np fun r =>
      { r with pgdir := pgdir, state := .unused }).setPc i .user)) :
    PgdirInv ((s.setProc np fun r => { r with pgdir := pgdir, state := .unused }).setPc i .user) := by
  let t := (s.setProc np fun r => { r with pgdir := pgdir, state := .unused }).setPc i .user
  have hf : Framed s t (fun q => q = np) (fun j => j = i) := framed_own hs rfl rfl hown
  have hrole : (t.pc i).role = .none := by
    rw [State.setPc_pc, if_pos rfl]
    rfl
  have hph : (t.proc np).phase = .unused := by
    rw [State.setPc_proc, State.setProc_proc_self]
    rfl
  refine hi.mono (fun pd k h => ?_) fun _ _ _ h => h
  refine (hf.holds hs hst h).resolve_right fun hodd => ?_
  obtain ⟨-, ⟨hst' | ⟨he, -⟩, -⟩ | ⟨he, -⟩⟩ := hodd.own (Or.inl hrole)
  · exact not_started hph (Or.inl rfl) hst'
  · exact Phase.noConfusion (hph.symm.trans he)
  · exact Phase.noConfusion (hph.symm.trans he)

theorem Sound.pid_eq_zero (hs : Sound s) {i : Slot} {b : Birth} (hb : (s.pc i).birth = some b)
    (hp : b.hasPid = false) : (s.proc b.slot).pid = 0 :=
  hs.base.pids.noPid i b hb hp

theorem Sound.pid_ne_zero (hs : Sound s) {i : Slot} {b : Birth} (hb : (s.pc i).birth = some b)
    (hp : b.hasPid = true) : (s.proc b.slot).pid ≠ 0 :=
  (hs.base.pid_of_birth hb hp).ne'

/-! #### fork -/

theorem pgdirInv_forkPgdir (hs : Sound s) (hi : PgdirInv s) {i np : Slot} {pd : Nat}
    (hpc : s.pc i = .fork np .pgdir) (hvm : s.vm pd = false)
    (hst : Sound (s.forkNext i np pd .pgdir)) : PgdirInv (s.forkNext i np pd .pgdir) := by
  have hf : Framed s (s.forkNext i np pd .pgdir) (fun q => q = np) (fun j => j = i) :=
    framed_own hs rfl rfl (by rw [hpc]; rfl)
  have hrole : ((s.forkNext i np pd .pgdir).pc i).role = .none := by
    rw [State.forkNext, State.setPc_pc, if_pos rfl]
    rfl
  have hnp : (s.forkNext i np pd .pgdir).proc np = { s.proc np with pgdir := some pd } := by
    rw [State.forkNext, State.setPc_proc, State.setProc_proc_self]
    rfl
  have hpid : (s.proc np).pid = 0 :=
    hs.pid_eq_zero (b := ⟨np, .process, false, false, none⟩) (by rw [hpc]; rfl) rfl
  have hembryo := hs.embryo_fork hpc
  have hslot : ∀ {pd'}, ¬ Holds s pd' (.slot np) := by
    intro pd' h
    cases h with
    | forking q h h0 hw hp => exact (hw i).1 (by rw [hpc]; rfl)
  refine hi.assign pd (.slot np) (fun pd' k h => ?_) fun pd' k _ h => ?_
  · rcases hf.holds hs hst h with hold | hodd
    · refine Or.inr ⟨?_, ?_, hold⟩
      · rintro rfl
        exact absurd (hvm.symm.trans (hi.used pd' k hold)) Bool.false_ne_true
      · rintro rfl
        exact hslot hold
    · obtain ⟨hp, ⟨hst' | ⟨-, h0⟩, -⟩ | ⟨-, -, -, hk⟩⟩ := hodd.own (Or.inl hrole)
      · exact (not_started (phase_forkNext (by decide)) (Or.inr hembryo) hst').elim
      · rw [hnp] at h0
        exact absurd hpid h0
      · rw [hnp] at hp
        exact Or.inl ⟨(Option.some.inj hp).symm, hk⟩
  · change Function.update s.vm pd true pd' = true
    rw [Function.update_apply]
    split_ifs with hpd
    · rfl
    · exact h.resolve_left hpd

/-- The new slot gets its pid, and the page directory belongs to its process from now on. -/
theorem pgdirInv_forkPid (hs : Sound s) (hi : PgdirInv s) {i np : Slot} {pd : Nat}
    {n : Int} (hpc : s.pc i = .fork np (.setPid n)) (hst : Sound (s.forkNext i np pd (.setPid n))) :
    PgdirInv (s.forkNext i np pd (.setPid n)) := by
  have hown : (s.pc i).owns = some np := by
    rw [hpc]
    rfl
  have hpos : 0 < n := by
    have htaken := hs.base.taken.pid i ⟨np, .process, false, false, some n⟩ n
      (by dsimp only [State.ids]; rw [hpc]; rfl) rfl rfl
    exact htaken.1
  have hf : Framed s (s.forkNext i np pd (.setPid n)) (fun q => q = np) (fun j => j = i) :=
    framed_own hs rfl rfl hown
  have hrole : ((s.forkNext i np pd (.setPid n)).pc i).role = .none := by
    rw [State.forkNext, State.setPc_pc, if_pos rfl]
    rfl
  have hnp : (s.forkNext i np pd (.setPid n)).proc np = { s.proc np with pid := n } := by
    rw [State.forkNext, State.setPc_proc, State.setProc_proc_self]
  have hfresh : ∀ q, (s.proc q).pid ≠ n := by
    have htaken := hs.base.taken.pid i ⟨np, .process, false, false, some n⟩ n
      (by dsimp only [State.ids]; rw [hpc]; rfl) rfl rfl
    exact fun q hq => htaken.2.1 q hq
  have hno : ∀ {pd'}, ¬ Holds s pd' (.process n) := by
    intro pd' h
    generalize hk : Owner.process n = k at h
    cases h with
    | started q h hp => exact hfresh q (Owner.process.inj hk).symm
    | named q h h0 hp => exact hfresh q (Owner.process.inj hk).symm
    | creating j q h hp => exact hfresh j (Owner.process.inj hk).symm
    | _ => cases hk
  have hback : ∀ pd' k, Holds (s.forkNext i np pd (.setPid n)) pd' k →
      Holds s pd' k ∧ k ≠ .slot np ∨ (s.proc np).pgdir = some pd' ∧ k = .process n := by
    intro pd' k h
    have hne : k ≠ .slot np := by
      rintro rfl
      cases h with
      | forking q h h0 hw hp =>
        rw [hnp] at h0
        exact hpos.ne' h0
    rcases hf.holds hs hst h with h | hodd
    · exact Or.inl ⟨h, hne⟩
    · obtain ⟨hp, ⟨-, hk⟩ | ⟨-, -, -, hk⟩⟩ := hodd.own (Or.inl hrole)
      · rw [hnp] at hp hk
        exact Or.inr ⟨hp, hk⟩
      · exact absurd hk hne
  cases hpd : (s.proc np).pgdir with
  | none =>
    refine hi.mono (fun pd' k h => ?_) fun _ _ _ h => h
    rcases hback pd' k h with ⟨h, -⟩ | ⟨hp, -⟩
    · exact h
    · rw [hpd] at hp
      cases hp
  | some pd₀ =>
    have hslot : Holds s pd₀ (.slot np) := by
      refine .forking np (hs.embryo hown) ?_ (fun j => ?_) hpd
      · exact hs.pid_eq_zero (b := ⟨np, .process, false, false, some n⟩) (by rw [hpc]; rfl) rfl
      · have hj : ∀ r, (s.pc j).role = r → r = .waiting np ∨ r = .creating np → False := by
          rintro r hr hw
          have hji : j = i := hs.owner (Pc.owns_of_role (by rw [hr]; exact hw)) hown
          rw [hji, hpc] at hr
          rcases hw with hw | hw <;> exact Role.noConfusion (hr.trans hw)
        exact ⟨fun h => hj _ h (Or.inl rfl), fun h => hj _ h (Or.inr rfl)⟩
    obtain ⟨g, hg⟩ := hi.owned
    refine hi.assign pd₀ (.process n) (fun pd' k h => ?_) fun pd' k _ h => ?_
    · rcases hback pd' k h with ⟨h, hne⟩ | ⟨hp, hk⟩
      · refine Or.inr ⟨?_, ?_, h⟩
        · rintro rfl
          exact hne ((hg _ k h).symm.trans (hg _ _ hslot))
        · rintro rfl
          exact hno h
      · rw [hpd] at hp
        exact Or.inl ⟨(Option.some.inj hp).symm, hk⟩
    · rcases h with h | h
      · rw [h]
        exact hi.used pd₀ _ hslot
      · exact h

/-- A new slot that has its pid starts. -/
theorem pgdirInv_start (hs : Sound s) (hi : PgdirInv s) {i np : Slot} {b : Birth}
    (hb : (s.pc i).birth = some b) (hslot : b.slot = np) (hown : (s.pc i).owns = some np)
    (hp : b.hasPid = true)
    (hst : Sound ((s.setProc np fun r => { r with state := .runnable }).setPc i .user)) :
    PgdirInv ((s.setProc np fun r => { r with state := .runnable }).setPc i .user) := by
  let t := (s.setProc np fun r => { r with state := .runnable }).setPc i .user
  have hf : Framed s t (fun q => q = np) (fun j => j = i) := framed_own hs rfl rfl hown
  have hrole : (t.pc i).role = .none := by
    rw [State.setPc_pc, if_pos rfl]
    rfl
  have hnp : t.proc np = { s.proc np with state := .runnable } := by
    rw [State.setPc_proc, State.setProc_proc_self]
  refine hi.mono (fun pd k h => ?_) fun _ _ _ h => h
  refine (hf.holds hs hst h).elim id fun hodd => ?_
  obtain ⟨hpd, ⟨-, hk⟩ | ⟨he, -⟩⟩ := hodd.own (Or.inl hrole)
  · rw [hnp] at hpd hk
    rw [hk]
    exact .named np (hs.embryo hown) (hslot ▸ hs.pid_ne_zero hb hp) hpd
  · rw [hnp] at he
    cases he

theorem pgdirInv_forkNext (hs : Sound s) (hi : PgdirInv s) {i np : Slot} {pd : Nat}
    {st : ForkStage} (hpc : s.pc i = .fork np st) (hvm : st = .pgdir → s.vm pd = false)
    (hst : Sound (s.forkNext i np pd st)) :
    PgdirInv (s.forkNext i np pd st) := by
  cases st with
  | pgdir => exact pgdirInv_forkPgdir hs hi hpc (hvm rfl) hst
  | setPid n => exact pgdirInv_forkPid hs hi hpc hst
  | pid =>
    exact pgdirInv_nobody hs hst hi
      (framed_setPc rfl (by rw [hpc]; rfl) fun q => near_of_eq rfl) rfl
  | nextpid n =>
    exact pgdirInv_nobody hs hst hi
      (framed_setPc rfl (by rw [hpc]; rfl) fun q => near_of_eq rfl) rfl
  | runnable =>
    exact pgdirInv_start hs hi (b := ⟨np, .process, true, true, none⟩) (by rw [hpc]; rfl) rfl
      (by rw [hpc]; rfl) rfl hst
  | files st =>
    have hq := State.quiet_copyNext s i np st
    have hf : Framed s (s.forkNext i np pd (.files st)) Nobody Nobody := by
      refine framed_setPc hq.pc ?_ fun q =>
        Proc.Same.near (t := s.forkNext i np pd (.files st)) (hq.proc q)
      rw [hpc]
      cases (s.copyNext i np st).2 <;> rfl
    exact pgdirInv_nobody hs hst hi hf hq.vm
  | _ =>
    exact pgdirInv_nobody hs hst hi
      (framed_setPc rfl (by rw [hpc]; rfl) fun q => near_fields rfl rfl rfl rfl) rfl

/-! #### thread_create -/

theorem pgdirInv_threadPgdir (hs : Sound s) (hi : PgdirInv s) {i np main : Slot} {enough : Bool}
    (hrun : (s.proc i).state = .running) (hpc : s.pc i = .thread np main .pgdir)
    (hmain : s.started main ∧ (s.proc main).pid = (s.proc i).pid)
    (hst : Sound (s.threadNext i np main enough .pgdir)) :
    PgdirInv (s.threadNext i np main enough .pgdir) := by
  let t := s.threadNext i np main enough .pgdir
  have hf : Framed s t (fun q => q = np) (fun j => j = i) :=
    framed_own hs rfl rfl (by rw [hpc]; rfl)
  have hrole : (t.pc i).role = .creating np := by
    change ((s.threadNext i np main enough .pgdir).pc i).role = _
    rw [State.threadNext, State.setPc_pc, if_pos rfl]
    rfl
  have hnp : t.proc np = { s.proc np with pgdir := (s.proc main).pgdir } := by
    change (s.threadNext i np main enough .pgdir).proc np = _
    rw [State.threadNext, State.setPc_proc, State.setProc_proc_self]
  have hpid : (s.proc np).pid = 0 :=
    hs.pid_eq_zero (b := ⟨np, .thread, false, false, none⟩) (by rw [hpc]; rfl) rfl
  have hembryo := hs.embryo_thread hpc
  have hi' : t.proc i = s.proc i :=
    setUp_proc rfl (State.started_ne (Or.inl (Proc.phase_alive hrun)) (Or.inl hembryo))
  have hno : ∀ {j r}, j = i → (t.pc j).role = r → r ≠ .creating np → False := by
    rintro j r rfl hr hne
    exact hne (hr.symm.trans hrole)
  refine hi.mono (fun pd k ht => ?_) fun _ _ _ h => h
  refine (hf.holds hs hst ht).elim id fun hodd => ?_
  clear ht
  cases hodd with
  | slot q hE hp h =>
    subst hE
    rcases h with h | ⟨-, h0⟩
    · have hph : (t.proc q).phase = .embryo := by
        rw [hnp]
        exact hembryo
      exact (not_started hph (Or.inr rfl) h).elim
    · rw [hnp] at h0
      exact absurd hpid h0
  | creating j q hR h hp =>
    subst hR
    have hq : np = q := Role.creating.inj (hrole.symm.trans h)
    rw [← hq, hnp] at hp
    rw [hi', ← hmain.2]
    exact .started main hmain.1 hp
  | forking q hE h h0 hw hp =>
    subst hE
    exact absurd hrole (hw i).2
  | image j hR h => exact (hno hR h Role.noConfusion).elim
  | old j hR h => exact (hno hR h Role.noConfusion).elim

theorem pgdirInv_threadPid (hs : Sound s) (hi : PgdirInv s) {i np main : Slot} {enough : Bool}
    (hrun : (s.proc i).state = .running) (hpc : s.pc i = .thread np main .pid)
    (hmain : (s.proc main).pid = (s.proc i).pid)
    (hst : Sound (s.threadNext i np main enough .pid)) :
    PgdirInv (s.threadNext i np main enough .pid) := by
  let t := s.threadNext i np main enough .pid
  have hf : Framed s t (fun q => q = np) (fun j => j = i) :=
    framed_own hs rfl rfl (by rw [hpc]; rfl)
  have hrole : (t.pc i).role = .none := by
    change ((s.threadNext i np main enough .pid).pc i).role = _
    rw [State.threadNext, State.setPc_pc, if_pos rfl]
    rfl
  have hnp : t.proc np = { s.proc np with pid := (s.proc main).pid } := by
    change (s.threadNext i np main enough .pid).proc np = _
    rw [State.threadNext, State.setPc_proc, State.setProc_proc_self]
  refine hi.mono (fun pd k h => ?_) fun _ _ _ h => h
  refine (hf.holds hs hst h).elim id fun hodd => ?_
  obtain ⟨hpd, ⟨-, hk⟩ | ⟨-, h0, -⟩⟩ := hodd.own (Or.inl hrole)
  · rw [hnp] at hpd hk
    rw [hk]
    dsimp only
    rw [hmain]
    exact .creating i np (by rw [hpc]; rfl) hpd
  · rw [hnp] at h0
    have hinit : i ≠ s.initproc :=
      hs.base.births.threadInit i ⟨np, .thread, false, false, none⟩
        (by dsimp only [State.ids]; rw [hpc]; rfl) rfl
    have hpos : 0 < (s.proc i).pid := hs.base.pids.pos i (Or.inl (Proc.phase_alive hrun)) hinit
    dsimp only at h0
    omega

theorem pgdirInv_threadNext (hs : Sound s) (hi : PgdirInv s) {i np main : Slot} {enough : Bool}
    {st : ThreadStage} (hrun : (s.proc i).state = .running) (hpc : s.pc i = .thread np main st)
    (hok : PgdirOk s (.threadNext i enough)) (hst : Sound (s.threadNext i np main enough st)) :
    PgdirInv (s.threadNext i np main enough st) := by
  cases st with
  | pgdir =>
    have h := hok.2
    unfold pgdirOk at h
    dsimp only at h
    rw [hpc] at h
    exact pgdirInv_threadPgdir hs hi hrun hpc (of_decide_eq_true h) hst
  | pid =>
    have h := hok.1
    unfold idsOk at h
    dsimp only at h
    rw [hpc] at h
    exact pgdirInv_threadPid hs hi hrun hpc (of_decide_eq_true h) hst
  | runnable =>
    exact pgdirInv_start hs hi (b := ⟨np, .thread, true, true, none⟩) (by rw [hpc]; rfl) rfl
      (by rw [hpc]; rfl) rfl hst
  | files st =>
    have hq := State.quiet_copyNext s main np st
    have hf : Framed s (s.threadNext i np main enough (.files st)) Nobody Nobody := by
      refine framed_setPc hq.pc ?_ fun q =>
        Proc.Same.near (t := s.threadNext i np main enough (.files st)) (hq.proc q)
      rw [hpc]
      cases (s.copyNext main np st).2 <;> rfl
    exact pgdirInv_nobody hs hst hi hf hq.vm
  | tid =>
    exact pgdirInv_nobody hs hst hi
      (framed_setPc rfl (by rw [hpc]; rfl) fun q => near_of_eq rfl) rfl
  | nexttid n =>
    exact pgdirInv_nobody hs hst hi
      (framed_setPc rfl (by rw [hpc]; rfl) fun q => near_of_eq rfl) rfl
  | limit =>
    have hf : Framed s (s.threadNext i np main enough .limit) Nobody Nobody := by
      unfold State.threadNext
      dsimp only
      split_ifs <;> exact framed_setPc rfl (by rw [hpc]; rfl) fun q => near_of_eq rfl
    have hvm : (s.threadNext i np main enough .limit).vm = s.vm := by
      unfold State.threadNext
      dsimp only
      split_ifs <;> rfl
    exact pgdirInv_nobody hs hst hi hf hvm
  | alloc =>
    refine pgdirInv_nobody hs hst hi (framed_setPc rfl ?_ fun q => near_setSz) rfl
    rw [hpc]
    split_ifs <;> rfl
  | copyout =>
    refine pgdirInv_nobody hs hst hi (framed_setPc rfl ?_ fun q => near_of_eq rfl) rfl
    rw [hpc]
    split_ifs <;> rfl
  | _ =>
    exact pgdirInv_nobody hs hst hi
      (framed_setPc rfl (by rw [hpc]; rfl) fun q => near_fields rfl rfl rfl rfl) rfl

/-! #### exit, wait and thread_join -/

theorem Pc.role_of_settled {k : Pc} (h : k.settled = true) : k.role = .none := by
  cases k with
  | fork np st => cases h
  | exec pd st => cases h
  | thread np main st => cases st <;> first | rfl | cases h
  | _ => rfl

theorem role_of_gone (hok : ∀ q, s.frees a q = true → (s.pc q).settled = true) {j : Slot}
    (hf : s.frees a j = true) (hj : (t.pc j) = .user) :
    (t.pc j).role = (s.pc j).role ∨
      (t.pc j).role = .none ∧ ∀ q, (s.pc j).role ≠ .waiting q ∧ (s.pc j).role ≠ .creating q := by
  left
  rw [hj, Pc.role_of_settled (hok j hf)]
  rfl

theorem exitLast_vm (s : State) (i : Slot) : (s.exitLast i).vm = s.vm := by
  rw [State.exitLast, State.setPc_vm, State.setProc_vm]
  unfold State.reparent
  dsimp only
  split_ifs
  · exact (State.quiet_wakeParent (s.vacate (s.siblings i)) i).vm
  · exact (State.quiet_wakeParent (s.vacate (s.siblings i)) i).vm

theorem pgdirInv_exitLast (hs : Sound s) (hi : PgdirInv s) {i : Slot}
    (hrun : (s.proc i).state = .running) (hpc : s.pc i = .exit .last)
    (hok : PgdirOk s (.exitLast i)) (hst : Sound (s.exitLast i)) : PgdirInv (s.exitLast i) := by
  have hgone : ∀ q, s.frees (.exitLast i) q = true → (s.pc q).settled = true :=
    of_decide_eq_true hok.2
  refine pgdirInv_nobody hs hst hi (framed_nobody (fun q hq => ?_) fun j => ?_) (exitLast_vm s i)
  · cases hsib : s.siblings i q with
    | true => exact absurd (exitLast_sibling hsib).phase hq
    | false =>
      by_cases hqi : q = i
      · subst hqi
        have hself := exitLast_self (s := s) (i := q)
        refine ⟨fun _ => Or.inl (Proc.phase_alive hrun), fun he => ?_, hself.pid, hself.pgdir⟩
        exact Phase.noConfusion (he.symm.trans hself.phase)
      · have hother := exitLast_other hsib hqi
        exact ⟨started_of_phase hother.phase, fun he => hother.phase.symm.trans he, hother.pid,
          hother.pgdir⟩
  · cases hsib : s.siblings i j with
    | true => exact role_of_gone hgone (decide_eq_true ⟨hpc, hsib⟩) (exitLast_pc (Or.inl hsib))
    | false =>
      by_cases hji : j = i
      · left
        rw [exitLast_pc (Or.inr hji), hji, hpc]
        rfl
      · left
        rw [exitLast_pc_of_not hji hsib]

theorem pgdirInv_threadExitLast (hs : Sound s) (hi : PgdirInv s) {i : Slot} {retval : Nat}
    (hrun : (s.proc i).state = .running) (hpc : s.pc i = .threadExit retval .last)
    (hst : Sound (s.threadExitLast i retval)) : PgdirInv (s.threadExitLast i retval) := by
  refine pgdirInv_nobody hs hst hi (framed_nobody (fun q _ => ?_) fun j => Or.inl ?_) rfl
  · by_cases hqi : q = i
    · subst hqi
      have hself := threadExitLast_self s q retval
      refine ⟨fun _ => Or.inl (Proc.phase_alive hrun), fun he => ?_, hself.pid, hself.pgdir⟩
      exact Phase.noConfusion (he.symm.trans hself.phase)
    · exact (threadExitLast_other retval hqi).near
  · exact role_setPc rfl (by rw [hpc]; rfl)

theorem near_other {p q : Slot} (hp : (t.proc p).phase = .unused)
    (ho : ∀ q, q ≠ p → t.proc q = s.proc q) (hq : (t.proc q).phase ≠ .unused) : Near s t q := by
  by_cases hqp : q = p
  · rw [hqp] at hq
    exact absurd hp hq
  · exact near_of_eq (ho q hqp)

theorem pgdirInv_reap (hs : Sound s) (hi : PgdirInv s) {i p : Slot} (hpc : (s.pc i).waits)
    (hw : s.waitFor i = some p) (hok : PgdirOk s (.wait i)) (hst : Sound (s.wait i)) :
    PgdirInv (s.wait i) := by
  have hz := (waitFor_some hw).2
  have hunused : ((s.wait i).proc p).phase = .unused := by
    rw [wait_self hw]
    rfl
  have hrole : ∀ j, ((s.wait i).pc j).role = (s.pc j).role := by
    intro j
    unfold State.wait
    rw [hw]
    dsimp only
    have hnone : Pc.user.role = (s.pc i).role := by
      rw [Pc.role_of_plain (Pc.plain_of_waits hpc)]
      rfl
    split <;> exact role_setPc rfl hnone
  have hf : Framed s (s.wait i) Nobody Nobody :=
    framed_nobody (fun q hq => near_other hunused (fun q hqp => wait_other hw hqp) hq)
      fun j => Or.inl (hrole j)
  refine hi.mono (fun pd k h => hf.holds_nobody hs hst h) fun pd k h hvm => ?_
  cases hpd : (s.proc p).pgdir with
  | none =>
    unfold State.wait
    rw [hw]
    dsimp only
    rw [hpd]
    exact hvm
  | some pd' =>
    have hne : pd ≠ pd' := by
      rintro rfl
      obtain ⟨hl, hfg⟩ := hok.last_wait hw
      rw [hpd] at hfg
      have hp : Holds s pd (.process (s.proc p).pid) := .started p (Or.inr hz) hpd
      refine hi.freed hs hst hf hp nofun nofun (fun q hq => ?_) h
      obtain ⟨hused, hqpd⟩ := hf.used hq
      rw [hqpd]
      refine hi.last hs hp hl hfg (fun r => ?_) ?_ hused
      · rw [hs.role_of_zombie hz]
        exact nofun
      · rintro rfl
        exact hq hunused
    unfold State.wait
    rw [hw]
    dsimp only
    rw [hpd]
    exact (Function.update_of_ne hne _ _).trans hvm

theorem pgdirInv_join (hs : Sound s) (hi : PgdirInv s) {i p : Slot} {thread : Nat}
    (hpc : (s.pc i).waits) (hj : s.joinFor thread = some p)
    (hst : Sound ((s.vacate fun q => q = p).setPc i .user)) :
    PgdirInv ((s.vacate fun q => q = p).setPc i .user) := by
  have hz := (joinFor_some hj).2
  refine pgdirInv_nobody hs hst hi (framed_nobody (fun q hq => ?_) fun j => Or.inl ?_) rfl
  · refine near_other (p := p) (vacate_proc (s := s) (fun r => r = p) (decide_eq_true rfl)).phase
      (fun q hqp => ?_) hq
    exact vacate_proc_of_not (s := s) (fun r => r = p) (decide_eq_false hqp)
  · rw [State.setPc_pc]
    split_ifs with hji
    · rw [hji, Pc.role_of_plain (Pc.plain_of_waits hpc)]
      rfl
    · by_cases hjp : j = p
      · rw [vacate_pc (decide_eq_true hjp), hjp, hs.role_of_zombie hz]
        rfl
      · rw [vacate_pc_of_not (decide_eq_false hjp)]

/-! #### exec -/

theorem pgdirInv_exec (hs : Sound s) (hi : PgdirInv s) {i : Slot} {pd ip : Nat}
    (hpc : s.pc i = .fs (.io [ip])) (hvm : s.vm pd = false) (hst : Sound (s.exec i pd ip)) :
    PgdirInv (s.exec i pd ip) := by
  have hf : Framed s (s.exec i pd ip) Nobody (fun j => j = i) := by
    refine ⟨fun q _ _ => near_of_eq rfl, fun j hj => Or.inl ?_, nofun, fun j q hj h => ?_, nofun⟩
    · rw [State.exec, State.setPc_pc, if_neg hj]
      rfl
    · rw [hj, hpc] at h
      rcases h with h | h <;> cases h
  have hrole : ((s.exec i pd ip).pc i).role = .image pd := by
    rw [State.exec, State.setPc_pc, if_pos rfl]
    rfl
  have hno : ∀ {j r}, j = i → ((s.exec i pd ip).pc j).role = r → r = .image pd := by
    rintro j r rfl hr
    exact hr.symm.trans hrole
  refine hi.assign pd (.image i) (fun pd' k ht => ?_) fun pd' k _ h => ?_
  · rcases hf.holds hs hst ht with hold | hodd
    · refine Or.inr ⟨?_, ?_, hold⟩
      · rintro rfl
        exact absurd (hvm.symm.trans (hi.used pd' k hold)) Bool.false_ne_true
      · rintro rfl
        cases hold with
        | image i h =>
          rw [hpc] at h
          cases h
    · cases hodd with
      | slot q hE hp h => exact hE.elim
      | creating j q hR h hp => cases hno hR h
      | forking q hE h h0 hw hp => exact hE.elim
      | image j hR h =>
        rw [hR]
        exact Or.inl ⟨Role.image.inj (hno hR h), rfl⟩
      | old j hR h => cases hno hR h
  · change Function.update s.vm pd true pd' = true
    rw [Function.update_apply]
    split_ifs with hpd
    · rfl
    · exact h.resolve_left hpd

theorem pgdirInv_execBad (hs : Sound s) (hi : PgdirInv s) {i : Slot} {pd : Nat} {st : ExecStage}
    (hrole : (s.pc i).role = .image pd) (hst : Sound (s.execBad i pd st)) :
    PgdirInv (s.execBad i pd st) := by
  have hnone : ((s.execBad i pd st).pc i).role = .none := by
    rw [State.execBad, State.setPc_pc, if_pos rfl]
    exact Pc.role_of_plain (Pc.bad_plain st)
  have hf : Framed s (s.execBad i pd st) Nobody Nobody := by
    refine framed_nobody (fun q _ => near_of_eq rfl) fun j => ?_
    by_cases hj : j = i
    · subst hj
      rw [hrole]
      exact Or.inr ⟨hnone, fun q => ⟨nofun, nofun⟩⟩
    · left
      rw [State.execBad, State.setPc_pc, if_neg hj]
      rfl
  refine hi.mono (fun pd' k h => hf.holds_nobody hs hst h) fun pd' k h hvm => ?_
  have hne : pd' ≠ pd := by
    rintro rfl
    obtain ⟨g, hg⟩ := hi.owned
    have hk := (hg _ k (hf.holds_nobody hs hst h)).symm.trans (hg _ _ (.image i hrole))
    rw [hk] at h
    cases h with
    | image i h => exact Role.noConfusion (hnone.symm.trans h)
  exact (Function.update_of_ne hne _ _).trans hvm

theorem pgdirInv_cleanforexec (hs : Sound s) (hi : PgdirInv s) {i : Slot} {pd : Nat}
    (hpc : s.pc i = .exec pd .clean) (hok : PgdirOk s (.cleanforexec i))
    (hst : Sound ((s.cleanforexec i).setPc i (.exec pd .stack))) :
    PgdirInv ((s.cleanforexec i).setPc i (.exec pd .stack)) := by
  have hgone : ∀ q, s.frees (.cleanforexec i) q = true → (s.pc q).settled = true :=
    of_decide_eq_true hok.2
  have hsame : Pc.role (.exec pd .stack) = (s.pc i).role := by
    rw [hpc]
    rfl
  unfold State.cleanforexec at hst ⊢
  split_ifs at hst ⊢ with htid
  · exact pgdirInv_nobody hs hst hi (framed_setPc rfl hsame fun q => near_of_eq rfl) rfl
  · refine pgdirInv_nobody hs hst hi (framed_nobody (fun q hq => ?_) fun j => ?_) rfl
    · cases hsib : s.siblings i q with
      | true => exact absurd (vacate_proc (s.siblings i) hsib).phase hq
      | false => exact near_of_eq (vacate_proc_of_not (s.siblings i) hsib)
    · by_cases hji : j = i
      · left
        rw [State.setPc_pc, if_pos hji, hji, hsame]
      · cases hsib : s.siblings i j with
        | true =>
          refine role_of_gone hgone (decide_eq_true ⟨htid, hsib⟩) ?_
          rw [State.setPc_pc, if_neg hji, vacate_pc hsib]
        | false =>
          left
          rw [State.setPc_pc, if_neg hji, vacate_pc_of_not hsib]

theorem pgdirInv_execCommit (hs : Sound s) (hi : PgdirInv s) {i : Slot} {pd sz oldpgdir : Nat}
    (hrun : (s.proc i).state = .running) (hpc : s.pc i = .exec pd .stack)
    (hold : (s.proc i).pgdir = some oldpgdir) (hl : s.last i)
    (hst : Sound ((s.setProc i fun r => { r with pgdir := some pd, sz := sz }).setPc i
      (.exec oldpgdir .free))) :
    PgdirInv ((s.setProc i fun r => { r with pgdir := some pd, sz := sz }).setPc i
      (.exec oldpgdir .free)) := by
  let t := (s.setProc i fun r => { r with pgdir := some pd, sz := sz }).setPc i (.exec oldpgdir .free)
  have hi' : t.proc i = { s.proc i with pgdir := some pd, sz := sz } := by
    rw [State.setPc_proc, State.setProc_proc_self]
  have hrole : (t.pc i).role = .old oldpgdir := by
    rw [State.setPc_pc, if_pos rfl]
    rfl
  have hroles : (s.pc i).role = .image pd := by
    rw [hpc]
    rfl
  have halive := Proc.phase_alive hrun
  have hno : ∀ {j r}, j = i → (t.pc j).role = r → r = .old oldpgdir := by
    rintro j r rfl hr
    exact hr.symm.trans hrole
  have hf : Framed s t (fun q => q = i) (fun j => j = i) := by
    refine ⟨fun q hq _ => near_of_eq (setUp_proc rfl hq), fun j hj => Or.inl ?_,
      fun q hq => Or.inl hq, fun j q hj h => ?_, fun j q _ hq h => ?_⟩
    · rw [State.setPc_pc, if_neg hj]
      rfl
    · rw [hj, hroles] at h
      rcases h with h | h <;> cases h
    · rw [hq] at h
      exact Phase.noConfusion (halive.symm.trans (hs.embryo (Pc.owns_of_role (Or.inr h))))
  obtain ⟨g, hg⟩ := hi.owned
  obtain ⟨m, hm⟩ := hi.single
  have himage : Holds s pd (.image i) := .image i hroles
  have hstarted : Holds s oldpgdir (.process (s.proc i).pid) := .started i (Or.inl halive) hold
  have hne : oldpgdir ≠ pd := by
    rintro rfl
    exact Owner.noConfusion ((hg _ _ himage).symm.trans (hg _ _ hstarted))
  have hlast : ∀ {q}, q ≠ i → s.started q ∨ (s.proc q).pid ≠ 0 →
      (s.proc q).pid = (s.proc i).pid → False :=
    fun hq hused hpid => hl _ ⟨hq, hused, hpid⟩
  -- the process has the new page directory only
  have hmine : ∀ {pd'}, Holds t pd' (.process (s.proc i).pid) → pd' = pd := by
    intro pd' h
    generalize hk : Owner.process (s.proc i).pid = k at h
    have hslot : ∀ {q}, (t.proc q).pgdir = some pd' → (t.proc q).pid = (s.proc i).pid →
        (q ≠ i → s.started q ∨ (s.proc q).pid ≠ 0) → pd' = pd := by
      intro q hp hpid hused
      by_cases hq : q = i
      · rw [hq, hi'] at hp
        exact (Option.some.inj hp).symm
      · rw [setUp_proc rfl hq] at hpid
        exact (hlast hq (hused hq) hpid).elim
    cases h with
    | started q h hp =>
      refine hslot hp (Owner.process.inj hk).symm fun hq => Or.inl ?_
      exact started_of_phase (by rw [setUp_proc rfl hq]) h
    | named q h h0 hp =>
      refine hslot hp (Owner.process.inj hk).symm fun hq => Or.inr ?_
      rw [setUp_proc rfl hq] at h0
      exact h0
    | creating j q h hp =>
      have hji : j ≠ i := by
        intro hji
        cases hno hji h
      have hpid := (Owner.process.inj hk).symm
      rw [setUp_proc rfl hji] at hpid
      exact (hlast hji (Or.inl (Or.inl (hs.alive_of_role (hf.role_of hji h nofun) nofun)))
        hpid).elim
    | _ => cases hk
  have hback : ∀ pd' k, Holds t pd' k →
      pd' = pd ∧ k = .process (s.proc i).pid ∨ pd' = oldpgdir ∧ k = .former i ∨
        pd' ≠ pd ∧ pd' ≠ oldpgdir ∧ k ≠ .process (s.proc i).pid ∧ Holds s pd' k := by
    intro pd' k ht
    rcases hf.holds hs hst ht with hb | hodd
    · have hpd : pd' ≠ pd := by
        rintro rfl
        obtain rfl : k = .image i := (hg _ k hb).symm.trans (hg _ _ himage)
        cases ht with
        | image i h => cases hno rfl h
      have hkn : k ≠ .process (s.proc i).pid := by
        rintro rfl
        exact hpd (hmine ht)
      refine Or.inr (Or.inr ⟨hpd, ?_, hkn, hb⟩)
      rintro rfl
      exact hkn ((hg _ k hb).symm.trans (hg _ _ hstarted))
    · clear ht
      cases hodd with
      | slot q hE hp h =>
        rw [hE, hi'] at hp
        rw [hE, hi']
        exact Or.inl ⟨(Option.some.inj hp).symm, rfl⟩
      | creating j q hR h hp => cases hno hR h
      | forking q hE h h0 hw hp =>
        rw [hE, hi'] at h
        exact Phase.noConfusion (halive.symm.trans h)
      | image j hR h => cases hno hR h
      | old j hR h =>
        have hpd := Role.old.inj (hno hR h)
        rw [hR]
        exact Or.inr (Or.inl ⟨hpd, rfl⟩)
  refine ⟨⟨fun pd' => if pd' = pd then .process (s.proc i).pid else
      if pd' = oldpgdir then .former i else g pd', fun pd' k h => ?_⟩,
    ⟨Function.update m (s.proc i).pid pd, fun pd' n h => ?_⟩, fun pd' k h => ?_⟩
  · dsimp only
    rcases hback pd' k h with ⟨hpd, hk⟩ | ⟨hpd, hk⟩ | ⟨hpd, hpd', -, hb⟩
    · rw [if_pos hpd, hk]
    · rw [if_neg (hpd ▸ hne), if_pos hpd, hk]
    · rw [if_neg hpd, if_neg hpd', hg pd' k hb]
  · rw [Function.update_apply]
    rcases hback pd' _ h with ⟨hpd, hk⟩ | ⟨-, hk⟩ | ⟨-, -, hk, hb⟩
    · rw [if_pos (Owner.process.inj hk), hpd]
    · cases hk
    · rw [if_neg fun hn => hk (congrArg _ hn), hm pd' n hb]
  · change s.vm pd' = true
    rcases hback pd' k h with ⟨hpd, -⟩ | ⟨hpd, -⟩ | ⟨-, -, -, hb⟩
    · rw [hpd]
      exact hi.used pd _ himage
    · rw [hpd]
      exact hi.used oldpgdir _ hstarted
    · exact hi.used pd' k hb

theorem pgdirInv_execFree (hs : Sound s) (hi : PgdirInv s) {i : Slot} {oldpgdir : Nat}
    (hpc : s.pc i = .exec oldpgdir .free) (hok : PgdirOk s (.execFree i))
    (hst : Sound (s.execFree i oldpgdir)) : PgdirInv (s.execFree i oldpgdir) := by
  have hrole : (s.pc i).role = .old oldpgdir := by
    rw [hpc]
    rfl
  have hnone : ((s.execFree i oldpgdir).pc i).role = .none := by
    rw [State.execFree, State.setPc_pc, if_pos rfl]
    rfl
  have hf : Framed s (s.execFree i oldpgdir) Nobody Nobody := by
    refine framed_nobody (fun q _ => near_of_eq rfl) fun j => ?_
    by_cases hj : j = i
    · subst hj
      rw [hrole]
      exact Or.inr ⟨hnone, fun q => ⟨nofun, nofun⟩⟩
    · left
      rw [State.execFree, State.setPc_pc, if_neg hj]
      rfl
  refine hi.mono (fun pd k h => hf.holds_nobody hs hst h) fun pd k h hvm => ?_
  have hne : pd ≠ oldpgdir := by
    rintro rfl
    refine hi.freed hs hst hf (.old i hrole) nofun (fun j hj => ?_) (fun q hq => ?_) h
    · rw [← Owner.former.inj hj, hnone]
      exact nofun
    · obtain ⟨hused, hpd⟩ := hf.used hq
      rw [hpd]
      exact hi.former hs hrole (hok.forgotten hpc) hused
  exact (Function.update_of_ne hne _ _).trans hvm

theorem pgdirInv_step (hs : Sound s) (hi : PgdirInv s) (hok : PgdirOk s a)
    (h : step s a = some t) : PgdirInv t := by
  have hst := hs.step hok.1 h
  cases step_effect h with
  | kept hf h hpc hfile hlog => exact pgdirInv_nobody hs hst hi (framed_kept h hpc) h.vm
  | alloc hf i np k hrun hpc hnp hk =>
    refine pgdirInv_alloc hs hi hpc hnp ?_ hst
    rcases hk with hk | ⟨main, -, hk⟩ <;> rw [hk] <;> rfl
  | abort hf i np pgdir hrun hpc =>
    refine pgdirInv_abort hs hi ?_ hst
    rcases hpc with hpc | ⟨main, hpc⟩ <;> rw [hpc] <;> rfl
  | forkNext i np pd st hrun hpc hvm hdup => exact pgdirInv_forkNext hs hi hpc hvm hst
  | threadNext i np main enough st hrun hpc hdup => exact pgdirInv_threadNext hs hi hrun hpc hok hst
  | exitLast i hrun hpc hfree => exact pgdirInv_exitLast hs hi hrun hpc hok hst
  | threadExitLast i retval hrun hpc => exact pgdirInv_threadExitLast hs hi hrun hpc hst
  | reap i p hrun hpc hw => exact pgdirInv_reap hs hi hpc hw hok hst
  | join i p thread hrun hpc hj => exact pgdirInv_join hs hi hpc hj hst
  | exec i pd ip hrun hpc hvm => exact pgdirInv_exec hs hi hpc hvm hst
  | execBad i pd st hrun hpc hst' =>
    refine pgdirInv_execBad hs hi ?_ hst
    rw [hpc]
    rcases hst' with ⟨ip, rfl⟩ | rfl <;> rfl
  | cleanforexec i pd hrun hpc hidle hfree => exact pgdirInv_cleanforexec hs hi hpc hok hst
  | execCommit i pd sz oldpgdir hrun hpc hold =>
    exact pgdirInv_execCommit hs hi hrun hpc hold (of_decide_eq_true hok.2) hst
  | execFree i oldpgdir hrun hpc => exact pgdirInv_execFree hs hi hpc hok hst
  | growproc i main n enough sz hlimit hmain =>
    have hf : Framed s (s.setProc main fun r => { r with sz := sz }) Nobody Nobody := by
      refine framed_nobody (fun q _ => ?_) fun j => Or.inl rfl
      have hl := (left_setSz s q main sz).1
      exact ⟨started_of_phase hl.phase, fun he => hl.phase.symm.trans he, hl.pid, hl.pgdir⟩
    exact pgdirInv_nobody hs hst hi hf rfl
  | setmemorylimit i p pid limit h0 hp hsz =>
    have hf : Framed s (s.setProc p fun r => { r with memorylimit := limit }) Nobody Nobody := by
      refine framed_nobody (fun q _ => ?_) fun j => Or.inl rfl
      have hl := (left_setLimit s q p limit).1
      exact ⟨started_of_phase hl.phase, fun he => hl.phase.symm.trans he, hl.pid, hl.pgdir⟩
    exact pgdirInv_nobody hs hst hi hf rfl

/-! ### Who keeps a page directory -/

/-- A started slot, or one that has been given its page directory. -/
def State.given (s : State) (q : Slot) : Prop :=
  s.started q ∨ ∃ j, (s.pc j).owns = some q ∧ (s.pc j).role ≠ .waiting q

/-- Every slot has a page directory once it has been given one, and none is lost. -/
structure KeptInv (s : State) : Prop where
  has : ∀ q, s.given q → (s.proc q).pgdir ≠ none
  kept : ∀ pd, s.vm pd = true → Kept s pd

theorem Change.pgdir {q : Slot} (h : Change s q a t) :
    (t.proc q).pgdir = (s.proc q).pgdir ∨
      ∃ sz pd oldpgdir, a = .execCommit q sz ∧ (t.proc q).pgdir = some pd ∧
        (s.proc q).pgdir = some oldpgdir ∧ t.pc q = .exec oldpgdir .free := by
  cases h with
  | same h => exact Or.inl h.pgdir
  | killed i hi hpc hq h hu => exact Or.inl h.pgdir
  | outlives i hi hpc hq hqi h => exact Or.inl h.pgdir
  | exits hi hpc h hu => exact Or.inl h.pgdir
  | threadExits retval hi hpc h hu => exact Or.inl h.pgdir
  | reaped i hi hw h => exact Or.inl h.pgdir
  | joined i thread hi hj h => exact Or.inl h.pgdir
  | cleaned i hi htid hq h hu => exact Or.inl h.pgdir
  | image pd sz hpc h hold =>
    obtain ⟨oldpgdir, hold, hpc'⟩ := hold
    exact Or.inr ⟨sz, pd, oldpgdir, rfl, by rw [h], hold, hpc'⟩
  | mainSz i np enough hpc h => exact Or.inl (by rw [h])
  | growproc i n enough sz hlimit h => exact Or.inl (by rw [h])
  | setmemorylimit i pid limit h0 hp hsz h => exact Or.inl (by rw [h])

theorem pgdir_setUp {u : State} {np i q : Slot} {f : Proc → Proc} {k : Pc} (hu : u.proc = s.proc)
    (hf : ∀ r, (f r).pgdir = r.pgdir) :
    (((u.setProc np f).setPc i k).proc q).pgdir = (s.proc q).pgdir := by
  rw [State.setPc_proc, State.setProc_proc, hu]
  split_ifs
  · rw [hf]
  · rfl

theorem forkNext_pgdir {i np : Slot} {pd : Nat} {st : ForkStage} (hst : st ≠ .pgdir) (q : Slot) :
    ((s.forkNext i np pd st).proc q).pgdir = (s.proc q).pgdir := by
  cases st with
  | pgdir => exact absurd rfl hst
  | files st => exact ((State.quiet_copyNext s i np st).proc q).pgdir
  | pid => rfl
  | nextpid n => rfl
  | _ => exact pgdir_setUp rfl fun _ => rfl

theorem threadNext_pgdir {i np main : Slot} {enough : Bool} {st : ThreadStage} (hst : st ≠ .pgdir)
    (q : Slot) : ((s.threadNext i np main enough st).proc q).pgdir = (s.proc q).pgdir := by
  cases st with
  | pgdir => exact absurd rfl hst
  | files st => exact ((State.quiet_copyNext s main np st).proc q).pgdir
  | limit =>
    unfold State.threadNext
    dsimp only
    split_ifs <;> rfl
  | alloc =>
    unfold State.threadNext
    dsimp only
    generalize State.allocuvm _ _ enough = sz
    exact pgdir_setUp rfl fun _ => rfl
  | tid => rfl
  | nexttid n => rfl
  | copyout => rfl
  | _ => exact pgdir_setUp rfl fun _ => rfl

theorem Pc.role_thread {np main q : Slot} {st : ThreadStage}
    (h : (Pc.thread np main st).role = .waiting q) : st = .pgdir := by
  cases st <;> first | rfl | cases h

theorem Pc.role_fork {np q : Slot} {st : ForkStage} (h : (Pc.fork np st).role = .waiting q) :
    st = .pgdir := by
  cases st <;> first | rfl | cases h

theorem has_step (hs : Sound s) (hk : KeptInv s) (hok : PgdirOk s a) (h : Effect s a t) {q : Slot}
    (hq : t.given q) : (t.proc q).pgdir ≠ none := by
  have hown : ∀ {j k}, s.pc j = k → k.owns = some q → k.role ≠ .waiting q →
      (s.proc q).pgdir ≠ none := by
    intro j k hpc ho hr
    exact hk.has q (Or.inr ⟨j, by rw [hpc]; exact ho, by rw [hpc]; exact hr⟩)
  rcases hq with hq | ⟨j, ho, hr⟩
  · rcases born_effect h hq with hqs | hborn
    · rcases (change_effect hs hqs h).pgdir with hpd | ⟨sz, pd, old, -, hpd, -⟩
      · rw [hpd]
        exact hk.has q (Or.inl hqs)
      · rw [hpd]
        exact Option.some_ne_none pd
    · cases hborn with
      | fork i pd hrun hpc =>
        rw [forkNext_pgdir (by decide)]
        exact hown hpc rfl fun hw => by cases hw
      | thread i main enough hrun hpc =>
        rw [threadNext_pgdir (by decide)]
        exact hown hpc rfl fun hw => by cases hw
  · cases shaped_effect hs h ho with
    | taken k hpc hnp hkk =>
      rw [State.setPc_pc, if_pos rfl] at hr
      rcases hkk with hkk | ⟨main, -, hkk⟩ <;> rw [hkk] at hr <;> exact absurd rfl hr
    | other hpc hl hparent =>
      rw [hl.pgdir]
      exact hown rfl (by rw [← hpc]; exact ho) (by rw [← hpc]; exact hr)
    | fork pd st hrun hpc hvm =>
      by_cases hst : st = .pgdir
      · subst hst
        rw [State.forkNext, State.setPc_proc, State.setProc_proc_self]
        exact Option.some_ne_none pd
      · rw [forkNext_pgdir hst]
        exact hown hpc rfl fun hw => hst (Pc.role_fork hw)
    | thread main enough st hrun hpc =>
      by_cases hst : st = .pgdir
      · subst hst
        rw [State.threadNext, State.setPc_proc, State.setProc_proc_self]
        have hm := hok.2
        unfold pgdirOk at hm
        dsimp only at hm
        rw [hpc] at hm
        exact hk.has main (Or.inl (of_decide_eq_true hm).1)
      · rw [threadNext_pgdir hst]
        exact hown hpc rfl fun hw => hst (Pc.role_thread hw)

theorem wait_eq {i : Slot} (h : step s (.wait i) = some t) : t = s.wait i := by
  unfold step at h
  dsimp only at h
  split_ifs at h
  cases h
  rfl

theorem wait_vm {i p : Slot} {pd : Nat} (hw : s.waitFor i = some p)
    (hpd : (s.proc p).pgdir = some pd) : (s.wait i).vm pd = false := by
  unfold State.wait
  rw [hw]
  dsimp only
  rw [hpd]
  exact Function.update_self _ _ _

/-- Another slot of the process has the same page directory. -/
theorem kept_mate (hs : Sound s) (hi : PgdirInv s) (hk : KeptInv s) (h : Effect s a t)
    {q r : Slot} {pd : Nat} (hq : s.started q) (hpd : (s.proc q).pgdir = some pd)
    (hr : s.started r) (hpid : (s.proc r).pid = (s.proc q).pid) (hf : s.frees a r = false)
    (ha : ∀ sz, a ≠ .execCommit r sz) : Kept t pd := by
  obtain ⟨m, hm⟩ := hi.single
  obtain ⟨pd', hpd'⟩ := Option.ne_none_iff_exists'.mp (hk.has r (Or.inl hr))
  have hsame : pd' = pd := by
    have h1 := hm pd _ (.started q hq hpd)
    have h2 := hm pd' _ (.started r hr hpd')
    rw [hpid, h1] at h2
    exact h2.symm
  have hc := change_effect hs hr h
  have hst : t.started r := by
    rcases hc.stays hr with hst | ⟨hfr, -⟩
    · exact hst.started
    · exact absurd (hf.symm.trans hfr) nofun
  rcases hc.pgdir with hp | ⟨sz, _, _, hcommit, -⟩
  · exact .started r hst (hp.trans (hpd'.trans (congrArg some hsame)))
  · exact absurd hcommit (ha sz)

theorem kept_started (hs : Sound s) (hi : PgdirInv s) (hk : KeptInv s) (hok : PgdirOk s a)
    (h : step s a = some t) {q : Slot} {pd : Nat} (hq : s.started q)
    (hpd : (s.proc q).pgdir = some pd) (hvm : t.vm pd = true) : Kept t pd := by
  have he := step_effect h
  have hc := change_effect hs hq he
  rcases hc.stays hq with hst | ⟨hf, hu⟩
  · rcases hc.pgdir with hp | ⟨sz, pd', old, -, -, hold, hpc⟩
    · exact .started q hst.started (hp.trans hpd)
    · obtain rfl : pd = old := Option.some.inj (hpd.symm.trans hold)
      exact .exec q .free hpc
  · have hself : ∀ i, s.siblings i i = false := fun i => by simp [State.siblings]
    cases a with
    | exitLast i =>
      obtain ⟨hpc, hsib⟩ := of_decide_eq_true hf
      have hi' : (s.proc i).phase = .alive := hs.busy i (by rw [hpc]; exact fun hno => by cases hno)
      exact kept_mate hs hi hk he hq hpd (Or.inl hi') (of_decide_eq_true hsib).1.symm
        (by simp [State.frees, hself]) fun _ hno => by cases hno
    | cleanforexec i =>
      obtain ⟨htid, hsib⟩ := of_decide_eq_true hf
      have hi' : s.started i := by
        cases hc with
        | same h => exact (not_started (h.phase.symm.trans hu) (Or.inl rfl) hq).elim
        | cleaned i hi htid hsib h hu => exact Or.inl (Proc.phase_alive hi)
      exact kept_mate hs hi hk he hq hpd hi' (of_decide_eq_true hsib).1.symm
        (by simp [State.frees, hself]) fun _ hno => by cases hno
    | wait i =>
      rw [wait_eq h, wait_vm (of_decide_eq_true hf) hpd] at hvm
      cases hvm
    | threadJoin i thread =>
      have hj : s.joinFor thread = some q := of_decide_eq_true hf
      have hmate := hok.2
      unfold pgdirOk at hmate
      dsimp only at hmate
      rw [hj] at hmate
      obtain ⟨r, hrq, hr, hpid⟩ := of_decide_eq_true hmate
      refine kept_mate hs hi hk he hq hpd hr hpid (decide_eq_false fun hjr => hrq ?_)
        fun _ hno => by cases hno
      exact (Option.some.inj (hj.symm.trans hjr)).symm
    | _ => cases hf

/-- What a thread in `fork`, `thread_create` or `exec` does in a step, itself or not. -/
inductive Acts (s : State) (j : Slot) : State → Prop where
  | none {t : State} (h : t.pc j = s.pc j) : Acts s j t
  | abort (np : Slot) (pgdir : Option Nat)
      (hpc : s.pc j = .fork np .pgdir ∨ ∃ main, s.pc j = .thread np main .pgdir) :
      Acts s j ((s.setProc np fun r => { r with pgdir := pgdir, state := .unused }).setPc j .user)
  | fork (np : Slot) (pd : Nat) (st : ForkStage) (hpc : s.pc j = .fork np st) :
      Acts s j (s.forkNext j np pd st)
  | thread (np main : Slot) (enough : Bool) (st : ThreadStage) (hpc : s.pc j = .thread np main st) :
      Acts s j (s.threadNext j np main enough st)
  | exec {t : State} (pd : Nat) (st st' : ExecStage) (hpc : s.pc j = .exec pd st)
      (h : t.pc j = .exec pd st') : Acts s j t
  | bad (pd : Nat) (st : ExecStage) (hpc : s.pc j = .exec pd st) : Acts s j (s.execBad j pd st)
  | commit (pd sz oldpgdir : Nat) (hpc : s.pc j = .exec pd .stack) :
      Acts s j ((s.setProc j fun r => { r with pgdir := some pd, sz := sz }).setPc j
        (.exec oldpgdir .free))
  | free (oldpgdir : Nat) (hpc : s.pc j = .exec oldpgdir .free) : Acts s j (s.execFree j oldpgdir)

theorem acts_of_ne {u : State} {i j : Slot} {k : Pc} (hu : u.pc = s.pc) (hji : j ≠ i) :
    Acts s j (u.setPc i k) := by
  refine .none ?_
  rw [State.setPc_pc, if_neg hji, hu]

theorem acts_effect (h : Effect s a t) {j : Slot} (hj : (s.pc j).plain = false) :
    s.frees a j = true ∨ Acts s j t := by
  have hplain : ∀ {i k}, s.pc i = k → k.plain = true → j ≠ i := by
    rintro i k hpc hk rfl
    rw [hpc, hk] at hj
    cases hj
  cases h with
  | kept hf h hpc hfile hlog =>
    rcases hpc j with hj' | hm | ⟨-, pd, ip, hj', hjt⟩
    · exact Or.inr (.none hj')
    · exact absurd (hj.symm.trans hm.before) nofun
    · exact Or.inr (.exec pd _ _ hj' hjt)
  | alloc hf i np k hrun hpc hnp hk => exact Or.inr (acts_of_ne rfl (hplain hpc rfl))
  | abort hf i np pgdir hrun hpc =>
    right
    by_cases hji : j = i
    · subst hji
      exact .abort np pgdir hpc
    · exact acts_of_ne rfl hji
  | forkNext i np pd st hrun hpc hvm hdup =>
    right
    by_cases hji : j = i
    · subst hji
      exact .fork np pd st hpc
    · cases st with
      | files st => exact acts_of_ne (State.quiet_copyNext s i np st).pc hji
      | _ => exact acts_of_ne rfl hji
  | threadNext i np main enough st hrun hpc hdup =>
    right
    by_cases hji : j = i
    · subst hji
      exact .thread np main enough st hpc
    · cases st with
      | files st => exact acts_of_ne (State.quiet_copyNext s main np st).pc hji
      | limit =>
        unfold State.threadNext
        dsimp only
        split_ifs <;> exact acts_of_ne rfl hji
      | _ => exact acts_of_ne rfl hji
  | exitLast i hrun hpc hfree =>
    cases hsib : s.siblings i j with
    | true => exact Or.inl (decide_eq_true ⟨hpc, hsib⟩)
    | false => exact Or.inr (.none (exitLast_pc_of_not (hplain hpc rfl) hsib))
  | threadExitLast i retval hrun hpc => exact Or.inr (acts_of_ne rfl (hplain hpc rfl))
  | reap i p hrun hpc hw =>
    right
    have hji := hplain rfl (Pc.plain_of_waits hpc)
    unfold State.wait
    rw [hw]
    dsimp only
    split <;> exact acts_of_ne rfl hji
  | join i p thread hrun hpc hjoin =>
    have hji := hplain rfl (Pc.plain_of_waits hpc)
    by_cases hjp : j = p
    · exact Or.inl (decide_eq_true (by rw [hjoin, hjp]))
    · refine Or.inr (.none ?_)
      rw [State.setPc_pc, if_neg hji, vacate_pc_of_not (decide_eq_false hjp)]
  | exec i pd ip hrun hpc hvm => exact Or.inr (acts_of_ne rfl (hplain hpc rfl))
  | execBad i pd st hrun hpc hst =>
    right
    by_cases hji : j = i
    · subst hji
      exact .bad pd st hpc
    · exact acts_of_ne rfl hji
  | cleanforexec i pd hrun hpc hidle hfree =>
    by_cases hji : j = i
    · subst hji
      exact Or.inr (.exec pd _ .stack hpc (by rw [State.setPc_pc, if_pos rfl]))
    · unfold State.cleanforexec
      split_ifs with htid
      · exact Or.inr (acts_of_ne rfl hji)
      · cases hsib : s.siblings i j with
        | true => exact Or.inl (decide_eq_true ⟨htid, hsib⟩)
        | false =>
          refine Or.inr (.none ?_)
          rw [State.setPc_pc, if_neg hji, vacate_pc_of_not hsib]
  | execCommit i pd sz oldpgdir hrun hpc hold =>
    right
    by_cases hji : j = i
    · subst hji
      exact .commit pd sz oldpgdir hpc
    · exact acts_of_ne rfl hji
  | execFree i oldpgdir hrun hpc =>
    right
    by_cases hji : j = i
    · subst hji
      exact .free oldpgdir hpc
    · exact acts_of_ne rfl hji
  | growproc i main n enough sz hlimit => exact Or.inr (.none rfl)
  | setmemorylimit i p pid limit h0 hp hsz => exact Or.inr (.none rfl)

/-- `exit` and `cleanforexec` take settled threads out of use, `wait` and `thread_join` ended
ones. -/
theorem settled_of_frees (hs : Sound s) (hok : PgdirOk s a) {j : Slot}
    (hf : s.frees a j = true) : (s.pc j).settled = true := by
  have hzombie : (s.proc j).phase = .zombie → (s.pc j).settled = true := by
    intro hz
    by_cases hu : s.pc j = .user
    · rw [hu]
      rfl
    · exact Phase.noConfusion (hz.symm.trans (hs.busy j hu))
  cases a with
  | exitLast i =>
    have hall : ∀ q, s.frees (.exitLast i) q = true → (s.pc q).settled = true :=
      of_decide_eq_true hok.2
    exact hall j hf
  | cleanforexec i =>
    have hall : ∀ q, s.frees (.cleanforexec i) q = true → (s.pc q).settled = true :=
      of_decide_eq_true hok.2
    exact hall j hf
  | wait i => exact hzombie (waitFor_some (of_decide_eq_true hf)).2
  | threadJoin i thread => exact hzombie (joinFor_some (of_decide_eq_true hf)).2
  | _ => cases hf

theorem acts_of_busy (hs : Sound s) (hok : PgdirOk s a) (h : Effect s a t) {j : Slot}
    (hj : (s.pc j).settled = false) (hp : (s.pc j).plain = false) : Acts s j t := by
  refine (acts_effect h hp).resolve_left fun hf => ?_
  exact absurd (hj.symm.trans (settled_of_frees hs hok hf)) nofun

theorem kept_forkNext {i q : Slot} {pd pd' : Nat} {st : ForkStage} (hst : st ≠ .pgdir)
    (hpd : (s.proc q).pgdir = some pd) : Kept (s.forkNext i q pd' st) pd := by
  have hp : ((s.forkNext i q pd' st).proc q).pgdir = some pd := by
    rw [forkNext_pgdir hst]
    exact hpd
  cases st with
  | pgdir => exact absurd rfl hst
  | runnable =>
    refine .started q (Or.inl ?_) hp
    change ((s.forkNext i q pd' .runnable).proc q).phase = .alive
    rw [State.forkNext, State.setPc_proc, State.setProc_proc_self]
    rfl
  | files st =>
    cases hn : (s.copyNext i q st).2 with
    | none =>
      refine .forking i q .runnable ?_ (fun hno => by cases hno) hp
      rw [State.forkNext, State.setPc_pc, if_pos rfl, hn]
      rfl
    | some st' =>
      refine .forking i q (.files st') ?_ (fun hno => by cases hno) hp
      rw [State.forkNext, State.setPc_pc, if_pos rfl, hn]
      rfl
  | _ =>
    refine .forking i q _ (by rw [State.forkNext, State.setPc_pc, if_pos rfl]) ?_ hp
    exact fun hno => by cases hno

theorem kept_forking (hs : Sound s) (hok : PgdirOk s a) (h : Effect s a t) {j q : Slot}
    {st : ForkStage} {pd : Nat} (hpc : s.pc j = .fork q st) (hst : st ≠ .pgdir)
    (hpd : (s.proc q).pgdir = some pd) : Kept t pd := by
  have hacts := acts_of_busy hs hok h (j := j) (by rw [hpc]; rfl) (by rw [hpc]; rfl)
  cases hacts with
  | none hj =>
    have ho : (t.pc j).owns = some q := by
      rw [hj, hpc]
      rfl
    cases shaped_effect hs h ho with
    | taken k hpc' hq hk =>
      rw [hpc] at hpc'
      cases hpc'
    | other hpc' hl hparent => exact .forking j q st (hj.trans hpc) hst (hl.pgdir.trans hpd)
    | fork pd' st' hrun hpc' hvm =>
      rw [hpc] at hpc'
      cases hpc'
      exact kept_forkNext hst hpd
    | thread main enough st' hrun hpc' =>
      rw [hpc] at hpc'
      cases hpc'
  | fork np pd' st' hpc' =>
    rw [hpc] at hpc'
    cases hpc'
    exact kept_forkNext hst hpd
  | abort np pgdir hpc' =>
    rcases hpc' with hpc' | ⟨main, hpc'⟩ <;> rw [hpc] at hpc' <;> cases hpc'
    exact absurd rfl hst
  | thread np main enough st' hpc' | exec pd' st' st'' hpc' hj | bad pd' st' hpc'
  | commit pd' sz old hpc' | free old hpc' =>
    rw [hpc] at hpc'
    cases hpc'

theorem kept_exec (hs : Sound s) (hok : PgdirOk s a) (h : Effect s a t) {i : Slot}
    {st : ExecStage} {pd : Nat} (hpc : s.pc i = .exec pd st) (hvm : t.vm pd = true) : Kept t pd := by
  have hacts := acts_of_busy hs hok h (j := i) (by rw [hpc]; rfl) (by rw [hpc]; rfl)
  have hfreed : ∀ {k}, ((s.freevm pd).setPc i k).vm pd = false :=
    fun {k} => Function.update_self _ _ _
  cases hacts with
  | none hj => exact .exec i st (hj.trans hpc)
  | exec pd' st' st'' hpc' hj =>
    rw [hpc] at hpc'
    cases hpc'
    exact .exec i st'' hj
  | bad pd' st' hpc' =>
    rw [hpc] at hpc'
    cases hpc'
    exact absurd (hfreed.symm.trans hvm) nofun
  | free old hpc' =>
    rw [hpc] at hpc'
    cases hpc'
    exact absurd (hfreed.symm.trans hvm) nofun
  | commit pd' sz old hpc' =>
    rw [hpc] at hpc'
    cases hpc'
    have halive : (s.proc i).phase = .alive := hs.busy i (by rw [hpc]; exact nofun)
    refine .started i (Or.inl ?_) (by rw [State.setPc_proc, State.setProc_proc_self])
    exact (phase_setUp rfl rfl).trans halive
  | abort np pgdir hpc' =>
    rcases hpc' with hpc' | ⟨main, hpc'⟩ <;> rw [hpc] at hpc' <;> cases hpc'
  | fork np pd' st' hpc' | thread np main enough st' hpc' =>
    rw [hpc] at hpc'
    cases hpc'

/-- A page directory comes into use in `fork` and in `exec`. -/
theorem vm_effect (h : Effect s a t) {pd : Nat} (hvm : t.vm pd = true) :
    s.vm pd = true ∨ Kept t pd := by
  have hfree : ∀ {pd'}, Function.update s.vm pd' false pd = true → s.vm pd = true := by
    intro pd' h
    rw [Function.update_apply] at h
    split_ifs at h
    exact h
  cases h with
  | kept hf h hpc hfile hlog => exact Or.inl (by rw [← h.vm]; exact hvm)
  | forkNext i np pd' st hrun hpc hvm' hdup =>
    cases st with
    | pgdir =>
      by_cases hpd : pd = pd'
      · subst hpd
        refine Or.inr (.forking i np .sz (by rw [State.forkNext, State.setPc_pc, if_pos rfl]) nofun ?_)
        rw [State.forkNext, State.setPc_proc, State.setProc_proc_self]
      · exact Or.inl ((Function.update_of_ne hpd _ _).symm.trans hvm)
    | files st => exact Or.inl (by rw [← (State.quiet_copyNext s i np st).vm]; exact hvm)
    | _ => exact Or.inl hvm
  | threadNext i np main enough st hrun hpc hdup =>
    left
    cases st with
    | files st =>
      rw [← (State.quiet_copyNext s main np st).vm]
      exact hvm
    | limit =>
      unfold State.threadNext at hvm
      dsimp only at hvm
      split_ifs at hvm <;> exact hvm
    | _ => exact hvm
  | exitLast i hrun hpc hfree' =>
    left
    rw [exitLast_vm] at hvm
    exact hvm
  | reap i p hrun hpc hw =>
    left
    unfold State.wait at hvm
    rw [hw] at hvm
    dsimp only at hvm
    split at hvm
    · exact hfree hvm
    · exact hvm
  | exec i pd' ip hrun hpc hvm' =>
    by_cases hpd : pd = pd'
    · subst hpd
      exact Or.inr (.exec i (.load ip) (by rw [State.exec, State.setPc_pc, if_pos rfl]))
    · exact Or.inl ((Function.update_of_ne hpd _ _).symm.trans hvm)
  | execBad i pd' st hrun hpc hst => exact Or.inl (hfree hvm)
  | execFree i oldpgdir hrun hpc => exact Or.inl (hfree hvm)
  | cleanforexec i pd' hrun hpc hidle hfree' =>
    left
    unfold State.cleanforexec at hvm
    split_ifs at hvm <;> exact hvm
  | _ => exact Or.inl hvm

theorem keptInv_step (hs : Sound s) (hi : PgdirInv s) (hk : KeptInv s) (hok : PgdirOk s a)
    (h : step s a = some t) : KeptInv t := by
  have he := step_effect h
  refine ⟨fun q hq => has_step hs hk hok he hq, fun pd hvm => ?_⟩
  rcases vm_effect he hvm with hs' | hkept
  · cases hk.kept pd hs' with
    | started q hq hpd => exact kept_started hs hi hk hok h hq hpd hvm
    | forking j q st hpc hst hpd => exact kept_forking hs hok he hpc hst hpd
    | exec i st hpc => exact kept_exec hs hok he hpc hvm
  · exact hkept

/-! ### The law -/

theorem pgdirLaw_step (hs : Sound s) (hi : PgdirInv s) (hk : KeptInv s) (hok : PgdirOk s a) :
    PgdirLaw s a := by
  have hused : ∀ {q}, (s.proc q).state ≠ .unused → (s.proc q).phase ≠ .unused :=
    fun hq hu => hq (Proc.phase_unused.mp hu)
  refine ⟨hk.kept, ?_, ?_, ?_⟩
  · rintro i p pd rfl hw hpd
    have hz := (waitFor_some hw).2
    obtain ⟨hl, hfg⟩ := hok.last_wait hw
    rw [hpd] at hfg
    have hp : Holds s pd (.process (s.proc p).pid) := .started p (Or.inr hz) hpd
    refine ⟨hi.used pd _ hp, fun q hqp hq => hi.last hs hp hl hfg (fun r => ?_) hqp (hused hq)⟩
    rw [hs.role_of_zombie hz]
    exact nofun
  · rintro i p rfl hw htid q hq hpid
    refine (hok.last_wait hw).1 q ⟨fun hqp => ?_, Or.inl (Or.inl hq), hpid⟩
    rw [hqp, (waitFor_some hw).2] at hq
    cases hq
  · rintro i oldpgdir rfl hpc
    have hrole : (s.pc i).role = .old oldpgdir := by
      rw [hpc]
      rfl
    exact ⟨hi.used oldpgdir _ (.old i hrole), fun q _ hq =>
      hi.former hs hrole (hok.forgotten hpc) (hused hq)⟩

end Steps

/-! ### Runs -/

theorem pgdirInv_userinit : PgdirInv userinit := by
  have hpd : ∀ {pd q}, userinit.started q → (userinit.proc q).pgdir = some pd → pd = 0 := by
    intro pd q hq hpd
    rw [userinit_started hq] at hpd
    exact (Option.some.inj hpd).symm
  have hstarted : ∀ {q}, (userinit.proc q).phase ≠ .unused → userinit.started q := by
    intro q hq
    by_cases hq0 : q = 0
    · subst hq0
      exact Or.inl rfl
    · dsimp only [userinit] at hq
      rw [Function.update_of_ne hq0] at hq
      exact absurd rfl hq
  have hholds : ∀ pd k, Holds userinit pd k → pd = 0 ∧ k = .process 0 := by
    intro pd k h
    cases h with
    | started q h hp => exact ⟨hpd h hp, by rw [userinit_pid]⟩
    | named q h h0 hp => exact absurd (userinit_pid q) h0
    | creating j q h hp => cases h
    | forking q h h0 hw hp =>
      rcases hstarted (by rw [h]; exact nofun) with hq | hq <;>
        exact Phase.noConfusion (hq.symm.trans h)
    | image i h => cases h
    | old i h => cases h
  refine ⟨⟨fun _ => .process 0, fun pd k h => (hholds pd k h).2.symm⟩,
    ⟨fun _ => 0, fun pd n h => (hholds pd _ h).1.symm⟩, fun pd k h => ?_⟩
  rw [(hholds pd k h).1]
  rfl


theorem keptInv_userinit : KeptInv userinit := by
  refine ⟨fun q hq => ?_, fun pd hvm => ?_⟩
  · rcases hq with hq | ⟨j, hj, -⟩
    · rw [userinit_started hq]
      exact nofun
    · cases hj
  · have hpd : pd = 0 := by
      by_contra hne
      dsimp only [userinit] at hvm
      rw [Function.update_of_ne hne] at hvm
      cases hvm
    exact .started 0 (Or.inl rfl) (by rw [hpd]; rfl)

/-- In every state each page directory in use is with a slot or a thread that will free it or
hand it on, and what `wait` and `exec` free nobody else has. -/
theorem pgdirLaw_of_reach {s : State} {a : Action} (hr : Reach step PgdirOk userinit s)
    (hok : PgdirOk s a) : PgdirLaw s a := by
  have hinv : Sound s ∧ PgdirInv s ∧ KeptInv s := by
    refine hr.invariant (I := fun s => Sound s ∧ PgdirInv s ∧ KeptInv s)
      ⟨sound_userinit, pgdirInv_userinit, keptInv_userinit⟩ ?_
    intro v a w ⟨hv, hi, hk⟩ hok hw
    exact ⟨hv.step hok.1 hw, pgdirInv_step hv hi hok hw, keptInv_step hv hi hk hok hw⟩
  exact pgdirLaw_step hinv.1 hinv.2.1 hinv.2.2 hok

-- The thread in slot 2 ends and is joined, then its process executes a new image and ends.
def executesImage : List Action :=
  processAndThread ++ [.yield 1, .sched 2] ++ threadExitSteps 2 0 0 ++
    [.sched 1, .threadJoin 1 1] ++ execSteps 1 5 2 ++ [.execCommit 1 8192]

def imageExecuted : State := (run (guarded step PgdirOk) userinit executesImage).getD userinit

def endsProcess : List Action := [.execFree 1] ++ exitSteps 1 0 ++ [.sched 0]

def processEnded : State := (run (guarded step PgdirOk) imageExecuted endsProcess).getD userinit

theorem pgdirLaw_of_reach_processEnded :
    (PgdirLaw imageExecuted (.execFree 1) ∧ imageExecuted.pc 1 = .exec 1 .free) ∧
      PgdirLaw processEnded (.wait 0) ∧ processEnded.waitFor 0 = some 1 := by
  have hfacts : (run (guarded step PgdirOk) userinit executesImage).isSome ∧
      (run (guarded step PgdirOk) imageExecuted endsProcess).isSome ∧
      (PgdirOk imageExecuted (.execFree 1) ∧ imageExecuted.pc 1 = .exec 1 .free) ∧
      PgdirOk processEnded (.wait 0) ∧ processEnded.waitFor 0 = some 1 := by decide +kernel
  obtain ⟨hrun, hrun', ⟨hfree, hpc⟩, hwait, hfor⟩ := hfacts
  have hexec : Reach step PgdirOk userinit imageExecuted :=
    reach_of_guarded_run (eq_some_getD hrun)
  have hends : Reach step PgdirOk imageExecuted processEnded :=
    reach_of_guarded_run (eq_some_getD hrun')
  exact ⟨⟨pgdirLaw_of_reach hexec hfree, hpc⟩, pgdirLaw_of_reach (hexec.trans hends) hwait, hfor⟩

-- The thread in slot 2 ends, and init runs before anyone joins it.
def leavesThread : List Action :=
  processAndThread ++ [.yield 1, .sched 2] ++ threadExitSteps 2 0 0 ++ [.sched 0]

def threadUnjoined : State :=
  (run (guarded step fun s a => idsOk s a = true) userinit leavesThread).getD userinit

/-- init is the parent of the thread, and its `wait` frees the page directory of the process. -/
theorem not_pgdirLaw_of_reach : ¬ ∀ s t a, Reach step (fun s a => idsOk s a = true) userinit s →
    step s a = some t → PgdirLaw s a := by
  intro hall
  have hfacts : (run (guarded step fun s a => idsOk s a = true) userinit leavesThread).isSome ∧
      (step threadUnjoined (.wait 0)).isSome ∧ threadUnjoined.waitFor 0 = some 2 ∧
      (threadUnjoined.proc 2).pgdir = some 1 ∧ (threadUnjoined.proc 1).pgdir = some 1 ∧
      (threadUnjoined.proc 1).state ≠ .unused := by decide +kernel
  obtain ⟨hrun, hstep, hfor, hpd, hmain, hused⟩ := hfacts
  have hreach : Reach step (fun s a => idsOk s a = true) userinit threadUnjoined :=
    reach_of_guarded_run (eq_some_getD hrun)
  have hwait : step threadUnjoined (.wait 0) = some ((step threadUnjoined (.wait 0)).getD userinit) :=
    eq_some_getD hstep
  have hlaw := hall threadUnjoined _ (.wait 0) hreach hwait
  exact (hlaw.wait 0 2 1 rfl hfor hpd).2 1 (by decide) hused hmain

end Xv6.Threads
