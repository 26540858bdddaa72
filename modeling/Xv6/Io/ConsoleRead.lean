import Xv6.Io.ConsoleEditor

/-!
# Reading from the console

A call of `consoleread` ends with the line, at an end of file, or with the number of bytes that it
was called for. Whoever sleeps finds nothing to read, and then there is room to type.
-/

namespace Xv6.Console
open Buffer Transition Wait

/-- The loop of `consoleread` takes plain characters, up to what ends it: it has enough, it finds
nothing, it has taken a line, or there is an end of file, which stays if something was copied. -/
inductive Taken (target n : Nat) (dst ready got rest : List Byte) : Bool → Prop where
  | count (bs : List Byte) : Plain bs → ready = bs ++ rest → got = dst ++ bs → bs.length = n →
      Taken target n dst ready got rest false
  | empty (bs : List Byte) : Plain bs → ready = bs ++ rest → got = dst ++ bs → bs.length < n →
      rest = [] → Taken target n dst ready got rest true
  | line (bs : List Byte) : Plain bs → ready = bs ++ [chr '\n'] ++ rest →
      got = dst ++ (bs ++ [chr '\n']) → bs.length < n → Taken target n dst ready got rest false
  | eof (bs : List Byte) : Plain bs → ready = bs ++ rest → got = dst ++ bs → bs.length < n →
      n - bs.length < target → rest.head? = some (C 'D') → Taken target n dst ready got rest false
  | last (bs : List Byte) : Plain bs → ready = bs ++ [C 'D'] ++ rest → got = dst ++ bs →
      bs.length < n → ¬ n - bs.length < target → Taken target n dst ready got rest false

theorem Plain.cons {c : Byte} {bs : List Byte} (hn : c ≠ chr '\n') (hd : c ≠ C 'D')
    (h : Plain bs) : Plain (c :: bs) := by
  intro b hb
  cases hb with
  | head => exact ⟨hn, hd⟩
  | tail _ hb => exact h b hb

theorem Plain.append {as bs : List Byte} (ha : Plain as) (hb : Plain bs) : Plain (as ++ bs) := by
  intro c hc
  exact (List.mem_append.mp hc).elim (ha c) (hb c)

theorem plain_nil : Plain [] := by
  intro c hc
  cases hc

theorem Taken.cons {target n : Nat} {dst ready got rest : List Byte} {b : Bool} {c : Byte}
    (hn : c ≠ chr '\n') (hd : c ≠ C 'D') (h : Taken target n (dst ++ [c]) ready got rest b) :
    Taken target (n + 1) dst (c :: ready) got rest b := by
  have hgot : ∀ bs, dst ++ [c] ++ bs = dst ++ c :: bs := fun bs => List.append_assoc ..
  have hsub : ∀ bs : List Byte, n + 1 - (c :: bs).length = n - bs.length :=
    fun bs => Nat.add_sub_add_right ..
  cases h with
  | count bs hplain hready heq hlen =>
    rw [hgot] at heq
    refine .count (c :: bs) (hplain.cons hn hd) ?_ heq (congrArg Nat.succ hlen)
    rw [hready]
    rfl
  | empty bs hplain hready heq hlt hnil =>
    rw [hgot] at heq
    refine .empty (c :: bs) (hplain.cons hn hd) ?_ heq (Nat.succ_lt_succ hlt) hnil
    rw [hready]
    rfl
  | line bs hplain hready heq hlt =>
    rw [hgot] at heq
    refine .line (c :: bs) (hplain.cons hn hd) ?_ heq (Nat.succ_lt_succ hlt)
    rw [hready]
    rfl
  | eof bs hplain hready heq hlt hmore hhead =>
    rw [hgot] at heq
    refine .eof (c :: bs) (hplain.cons hn hd) ?_ heq (Nat.succ_lt_succ hlt) ?_ hhead
    · rw [hready]
      rfl
    · rw [hsub]
      exact hmore
  | last bs hplain hready heq hlt hmore =>
    rw [hgot] at heq
    refine .last (c :: bs) (hplain.cons hn hd) ?_ heq (Nat.succ_lt_succ hlt) ?_
    · rw [hready]
      rfl
    · rw [hsub]
      exact hmore

namespace Input

variable {i : Input}

theorem consoleread_rest (target n : Nat) (i : Input) (dst : List Byte) :
    (i.consoleread target n dst).1.buf = i.buf ∧ (i.consoleread target n dst).1.w = i.w ∧
    (i.consoleread target n dst).1.e = i.e := by
  induction n generalizing i dst with
  | zero => exact ⟨rfl, rfl, rfl⟩
  | succ n ih =>
    unfold consoleread
    dsimp only
    split_ifs
    · exact ⟨rfl, rfl, rfl⟩
    · exact ⟨rfl, rfl, rfl⟩
    · exact ⟨rfl, rfl, rfl⟩
    · exact ⟨rfl, rfl, rfl⟩
    · exact ih _ _

theorem consoleread_taken (target n : Nat) (i : Input) (dst : List Byte) :
    Taken target n dst i.editor.ready (i.consoleread target n dst).2.1
      (i.consoleread target n dst).1.editor.ready (i.consoleread target n dst).2.2 := by
  induction n generalizing i dst with
  | zero => exact .count [] plain_nil rfl (List.append_nil _).symm rfl
  | succ n ih =>
    unfold consoleread
    by_cases hempty : i.r = i.w
    · rw [if_pos hempty]
      exact .empty [] plain_nil rfl (List.append_nil _).symm (Nat.succ_pos n)
        (ready_eq_nil.mpr hempty)
    rw [if_neg hempty]
    have hpop : i.editor.ready = i.buf (slot INPUT_BUF i.r) ::
        ({ i with r := i.r + 1 } : Input).editor.ready := Ring.window_pop hempty
    dsimp only
    generalize i.buf (slot INPUT_BUF i.r) = c at hpop
    by_cases hd : c = C 'D'
    · rw [if_pos hd]
      have hback : ({ i with r := i.r + 1 - 1 } : Input) = i := by
        have hr : i.r + 1 - 1 = i.r := by ring
        rw [hr]
      by_cases hmore : n + 1 < target
      · rw [if_pos hmore, hback]
        refine .eof [] plain_nil rfl (List.append_nil _).symm (Nat.succ_pos n) hmore ?_
        rw [hpop, hd]
        rfl
      · rw [if_neg hmore]
        refine .last [] plain_nil ?_ (List.append_nil _).symm (Nat.succ_pos n) hmore
        rw [hpop, hd]
        rfl
    rw [if_neg hd]
    by_cases hn : c = chr '\n'
    · rw [if_pos hn]
      refine .line [] plain_nil ?_ ?_ (Nat.succ_pos n)
      · rw [hpop, hn]
        rfl
      · rw [hn]
        rfl
    · rw [if_neg hn, hpop]
      exact (ih _ _).cons hn hd

end Input

variable {P : Type*} {s t : State P} {p q : P} {seen : Bool} {target : Nat} {dst bs : List Byte}

/-- How a call of `consoleread` that took `bs` ends. -/
inductive EndOfRead (target : Nat) (dst bs ready copied : List Byte) : Prop where
  | count : copied = dst ++ bs → Plain copied → copied.length = target →
      EndOfRead target dst bs ready copied
  | line (l : List Byte) : copied = dst ++ bs → copied = l ++ [chr '\n'] → Plain l →
      copied.length ≤ target → EndOfRead target dst bs ready copied
  /-- The end of file is left for the next call. -/
  | eof : copied = dst ++ bs → Plain copied → copied ≠ [] → copied.length < target →
      ready.head? = some (C 'D') → EndOfRead target dst bs ready copied
  | last : dst = [] → bs = [C 'D'] → copied = [] → EndOfRead target dst bs ready copied

/-- What a run of `p` in `consoleread` does: it takes `bs` off the text that can be read, copies
it, and sleeps or ends the call. -/
def ReadLaw (s t : State P) (p : P) (seen : Bool) (target : Nat) (dst : List Byte) : Prop :=
  ∃ bs, s.input.editor.ready = bs ++ t.input.editor.ready ∧ t.taken = s.taken ++ bs ∧
    t.input.editor.line = s.input.editor.line ∧
    (t.pc p = .consoleread target (dst ++ bs) ∧ t.input.editor.ready = [] ∧ seen = false ∨
     t.pc p = .idle ∧ t.ret p = -1 ∧ seen = true ∨
     t.pc p = .idle ∧ t.ret p = (t.copied p).length ∧
      EndOfRead target dst bs t.input.editor.ready (t.copied p))

/-- Who reads has copied plain characters, and who sleeps reads and finds nothing. -/
structure Asleep (s : State P) : Prop where
  reading : ∀ p target dst, s.pc p = .consoleread target dst → Plain dst ∧ dst.length ≤ target
  call : ∀ p c, s.chan p = some c → s.pc p ≠ .idle
  waits : Waits (fun _ => s.input.editor.ready = []) s.chan

/-! ### One run of a reader -/

variable [DecidableEq P]

/-- The run has taken `bs`, and the rest is as it was. -/
theorem consoleread_input (s : State P) (p : P) (seen : Bool) (target : Nat) (dst : List Byte) :
    (s.consoleread p seen target dst).input =
      (s.input.consoleread target (target - dst.length) dst).1 ∧
    (s.consoleread p seen target dst).taken = s.taken ++ window s.input.buf s.input.r
      (s.input.consoleread target (target - dst.length) dst).1.r ∧
    (s.consoleread p seen target dst).out = s.out := by
  unfold State.consoleread
  dsimp only
  split_ifs <;> exact ⟨rfl, rfl, rfl⟩

/-- The three ends of a run. -/
inductive Ran (s : State P) (p : P) (seen : Bool) (target : Nat)
    (x : Input × List Byte × Bool) (t : State P) : Prop where
  | stop : x.2.2 = true → seen = true → t.pc = Function.update s.pc p .idle → t.chan = s.chan →
      t.ret p = -1 → Ran s p seen target x t
  | sleep : x.2.2 = true → seen = false →
      t.pc = Function.update s.pc p (.consoleread target x.2.1) → t.chan = sleep s.chan p .r →
      Ran s p seen target x t
  | all : x.2.2 = false → t.pc = Function.update s.pc p .idle → t.chan = s.chan →
      t.ret p = x.2.1.length → t.copied p = x.2.1 → Ran s p seen target x t

theorem consoleread_ran (s : State P) (p : P) (seen : Bool) (target : Nat) (dst : List Byte) :
    Ran s p seen target (s.input.consoleread target (target - dst.length) dst)
      (s.consoleread p seen target dst) := by
  unfold State.consoleread
  dsimp only
  by_cases hempty : (s.input.consoleread target (target - dst.length) dst).2.2 = true
  · rw [if_pos hempty]
    cases seen with
    | true => exact .stop hempty rfl rfl rfl (Function.update_self ..)
    | false => exact .sleep hempty rfl rfl rfl
  · rw [if_neg hempty]
    rw [Bool.not_eq_true] at hempty
    exact .all hempty rfl rfl (Function.update_self ..) (Function.update_self ..)

/-- What is taken comes off the text that can be read. -/
theorem consoleread_editor (s : State P) (p : P) (seen : Bool) (target : Nat) (dst : List Byte)
    (hready : s.input.editor.ready =
      bs ++ (s.consoleread p seen target dst).input.editor.ready) :
    (s.consoleread p seen target dst).taken = s.taken ++ bs ∧
    (s.consoleread p seen target dst).input.editor.line = s.input.editor.line := by
  obtain ⟨hin, htaken, -⟩ := consoleread_input s p seen target dst
  obtain ⟨hbuf, hw, he⟩ := Input.consoleread_rest target (target - dst.length) s.input dst
  rw [hin] at hready ⊢
  rw [htaken]
  have hpassed : window s.input.buf s.input.r
      (s.input.consoleread target (target - dst.length) dst).1.r = bs := by
    unfold Input.editor at hready
    dsimp only at hready
    rw [hbuf, hw] at hready
    exact Ring.window_passed hready
  refine ⟨by rw [hpassed], ?_⟩
  unfold Input.editor
  rw [hbuf, hw, he]

theorem Taken.rest {n : Nat} {ready got rest : List Byte} {b : Bool}
    (h : Taken target n dst ready got rest b) : ∃ bs, ready = bs ++ rest := by
  cases h with
  | count bs _ hready => exact ⟨bs, hready⟩
  | empty bs _ hready => exact ⟨bs, hready⟩
  | line bs _ hready => exact ⟨_, hready⟩
  | eof bs _ hready => exact ⟨bs, hready⟩
  | last bs _ hready => exact ⟨_, hready⟩

theorem Edited.consoleread (h : Edited s) (p : P) (seen : Bool) (target : Nat) (dst : List Byte) :
    Edited (s.consoleread p seen target dst) := by
  have htaken := Input.consoleread_taken target (target - dst.length) s.input dst
  obtain ⟨hin, -, hout⟩ := consoleread_input s p seen target dst
  obtain ⟨hbuf, hw, he⟩ := Input.consoleread_rest target (target - dst.length) s.input dst
  rw [← hin] at htaken hbuf hw he
  obtain ⟨bs, hready⟩ := htaken.rest
  obtain ⟨htext, hline⟩ := consoleread_editor s p seen target dst hready
  have hlen := congrArg List.length hready
  rw [List.length_append] at hlen
  have hlinelen := congrArg List.length hline
  refine ⟨?_, ?_, ?_, ?_⟩
  · have hfits := h.fits
    unfold Input.Fits at hfits ⊢
    rw [← Input.length_ready, hw, he]
    rw [← Input.length_ready] at hfits
    omega
  · intro hfull
    have hle := h.fits.size_le
    rw [hline]
    apply h.full
    unfold Editor.size at hfull hle ⊢
    omega
  · rw [hline]
    exact h.line
  · rw [hout, h.text, htext, hline, hready]
    simp only [List.append_assoc]

theorem consoleread_law (s : State P) (p : P) (seen : Bool) (hplain : Plain dst)
    (hdst : dst.length ≤ target) : ReadLaw s (s.consoleread p seen target dst) p seen target dst := by
  have htaken := Input.consoleread_taken target (target - dst.length) s.input dst
  obtain ⟨hin, -, -⟩ := consoleread_input s p seen target dst
  have hran := consoleread_ran s p seen target dst
  rw [← hin] at htaken
  generalize hx : s.input.consoleread target (target - dst.length) dst = x at *
  have hidle : x.2.2 = false → (s.consoleread p seen target dst).pc p = .idle ∧
      (s.consoleread p seen target dst).ret p = x.2.1.length ∧
      (s.consoleread p seen target dst).copied p = x.2.1 := by
    intro hfalse
    cases hran with
    | stop htrue =>
      rw [hfalse] at htrue
      cases htrue
    | sleep htrue =>
      rw [hfalse] at htrue
      cases htrue
    | all _ hpc _ hret hcopied =>
      refine ⟨?_, hret, hcopied⟩
      rw [hpc, Function.update_self]
  generalize hb : x.2.2 = b at htaken
  cases htaken with
  | count bs hbs hready heq hlen =>
    obtain ⟨hpc, hret, hcopied⟩ := hidle hb
    obtain ⟨htext, hline⟩ := consoleread_editor s p seen target dst hready
    refine ⟨bs, hready, htext, hline, .inr (.inr ⟨hpc, ?_, ?_⟩)⟩
    · rw [hret, hcopied]
    · rw [hcopied, heq]
      refine .count rfl (hplain.append hbs) ?_
      rw [List.length_append]
      omega
  | empty bs hbs hready heq hlt hnil =>
    obtain ⟨htext, hline⟩ := consoleread_editor s p seen target dst hready
    refine ⟨bs, hready, htext, hline, ?_⟩
    cases hran with
    | stop _ hseen hpc _ hret =>
      refine .inr (.inl ⟨?_, hret, hseen⟩)
      rw [hpc, Function.update_self]
    | sleep _ hseen hpc _ =>
      refine .inl ⟨?_, hnil, hseen⟩
      rw [hpc, Function.update_self, heq]
    | all hfalse =>
      rw [hb] at hfalse
      cases hfalse
  | line bs hbs hready heq hlt =>
    obtain ⟨hpc, hret, hcopied⟩ := hidle hb
    obtain ⟨htext, hline⟩ := consoleread_editor s p seen target dst hready
    refine ⟨_, hready, htext, hline, .inr (.inr ⟨hpc, ?_, ?_⟩)⟩
    · rw [hret, hcopied]
    · rw [hcopied, heq]
      refine .line (dst ++ bs) rfl (List.append_assoc ..).symm (hplain.append hbs) ?_
      simp only [List.length_append, List.length_singleton]
      omega
  | eof bs hbs hready heq hlt hmore hhead =>
    obtain ⟨hpc, hret, hcopied⟩ := hidle hb
    obtain ⟨htext, hline⟩ := consoleread_editor s p seen target dst hready
    refine ⟨bs, hready, htext, hline, .inr (.inr ⟨hpc, ?_, ?_⟩)⟩
    · rw [hret, hcopied]
    · have hlen : (dst ++ bs).length = dst.length + bs.length := List.length_append
      rw [hcopied, heq]
      refine .eof rfl (hplain.append hbs) ?_ (by omega) hhead
      intro hnil
      rw [hnil, List.length_nil] at hlen
      omega
  | last bs hbs hready heq hlt hmore =>
    obtain ⟨hpc, hret, hcopied⟩ := hidle hb
    obtain ⟨htext, hline⟩ := consoleread_editor s p seen target dst hready
    have hdst : dst = [] := List.length_eq_zero_iff.mp (by omega)
    have hnone : bs = [] := List.length_eq_zero_iff.mp (by omega)
    refine ⟨_, hready, htext, hline, .inr (.inr ⟨hpc, ?_, ?_⟩)⟩
    · rw [hret, hcopied]
    · rw [hcopied, heq, hdst, hnone]
      exact .last rfl rfl rfl

/-! ### Runs -/

theorem Edited.step {a : Action P} (h : Edited s) (hs : Console.step s a = some t) : Edited t := by
  cases a with
  | intr cs =>
    cases hs
    exact (h.consoleintr cs).1
  | read p n =>
    obtain ⟨-, hs⟩ := Option.ite_none_right_eq_some.mp hs
    cases hs
    exact ⟨h.fits, h.full, h.line, h.text⟩
  | run p seen =>
    obtain ⟨-, hs⟩ := Option.ite_none_right_eq_some.mp hs
    unfold State.run at hs
    cases hp : s.pc p with
    | idle =>
      rw [hp] at hs
      cases hs
    | consoleread target dst =>
      rw [hp] at hs
      cases hs
      exact h.consoleread p seen target dst
  | kill p =>
    cases hs
    exact ⟨h.fits, h.full, h.line, h.text⟩

/-- A key that does not finish a line wakes nobody, and gives nobody anything to read. -/
structure Typed (s t : State P) : Prop where
  pc : t.pc = s.pc
  taken : t.taken = s.taken
  chan : t.chan = s.chan ∧ t.input.editor.ready = s.input.editor.ready ∨ t.chan = wakeup s.chan .r

omit [DecidableEq P] in
theorem typed_killLine (n : Nat) (s : State P) : Typed s (s.killLine n) := by
  induction n generalizing s with
  | zero => exact ⟨rfl, rfl, .inl ⟨rfl, rfl⟩⟩
  | succ n ih =>
    unfold State.killLine
    split_ifs
    · have h := ih s.erase
      exact ⟨h.pc, h.taken, h.chan⟩
    · exact ⟨rfl, rfl, .inl ⟨rfl, rfl⟩⟩

omit [DecidableEq P] in
theorem Edited.typed_store (h : Edited s) {c : Byte} (hlt : s.input.editor.size < INPUT_BUF) :
    Typed s (s.store c) := by
  have hput := Input.put_editor h.fits hlt c
  unfold State.store
  dsimp only
  split_ifs
  · exact ⟨rfl, rfl, .inr rfl⟩
  · refine ⟨rfl, rfl, .inl ⟨rfl, ?_⟩⟩
    show (s.input.put c).editor.ready = s.input.editor.ready
    rw [hput]

omit [DecidableEq P] in
theorem Edited.typed (h : Edited s) (c : Byte) : Typed s (s.key c) := by
  unfold State.key
  split_ifs with _ _ _ _ hroom
  · exact ⟨rfl, rfl, .inl ⟨rfl, rfl⟩⟩
  · exact typed_killLine _ s
  · exact ⟨rfl, rfl, .inl ⟨rfl, rfl⟩⟩
  · exact ⟨rfl, rfl, .inl ⟨rfl, rfl⟩⟩
  · rw [h.fits.size_eq] at hroom
    exact h.typed_store hroom.2
  · rw [h.fits.size_eq] at hroom
    exact h.typed_store hroom.2
  · exact ⟨rfl, rfl, .inl ⟨rfl, rfl⟩⟩

omit [DecidableEq P] in
theorem Edited.taken_consoleintr (h : Edited s) (cs : List Byte) :
    (s.consoleintr cs).taken = s.taken := by
  induction cs generalizing s with
  | nil => rfl
  | cons c cs ih =>
    have hrest := ih (h.key c).1
    exact hrest.trans (h.typed c).taken

namespace Asleep

omit [DecidableEq P] in
theorem typed (h : Asleep s) (ht : Typed s t) : Asleep t := by
  obtain ⟨hpc, -, hchan⟩ := ht
  refine ⟨?_, ?_, ?_⟩
  · rw [hpc]
    exact h.reading
  · intro q c hq
    rw [hpc]
    obtain ⟨hsame, -⟩ | hwoken := hchan
    · rw [hsame] at hq
      exact h.call q c hq
    · rw [hwoken] at hq
      exact h.call q c (wakeup_eq_some.mp hq).1
  · obtain ⟨hsame, hready⟩ | hwoken := hchan
    · rw [hsame, hready]
      exact h.waits
    · rw [hwoken]
      refine h.waits.wakeup fun d hd _ => ?_
      cases d
      exact absurd rfl hd

omit [DecidableEq P] in
theorem consoleintr (h : Asleep s) (he : Edited s) (cs : List Byte) : Asleep (s.consoleintr cs) := by
  induction cs generalizing s with
  | nil => exact h
  | cons c cs ih => exact ih (h.typed (he.typed c)) (he.key c).1

theorem consoleread (h : Asleep s) (hp : s.pc p = .consoleread target dst)
    (hchan : s.chan p = none) : Asleep (s.consoleread p seen target dst) := by
  obtain ⟨hplain, hdst⟩ := h.reading p target dst hp
  have htaken := Input.consoleread_taken target (target - dst.length) s.input dst
  obtain ⟨hin, -, -⟩ := consoleread_input s p seen target dst
  have hran := consoleread_ran s p seen target dst
  rw [← hin] at htaken
  obtain ⟨bs, hready⟩ := htaken.rest
  have hmono : ∀ _ : Chan, s.input.editor.ready = [] →
      (s.consoleread p seen target dst).input.editor.ready = [] := by
    intro _ hnil
    rw [hnil] at hready
    exact (List.append_eq_nil_iff.mp hready.symm).2
  have hne : ∀ {q c}, s.chan q = some c → q ≠ p := by
    intro q c hc hq
    rw [hq, hchan] at hc
    cases hc
  -- Everybody but `p` stays where he is.
  have hidle : (s.consoleread p seen target dst).pc = Function.update s.pc p .idle →
      (s.consoleread p seen target dst).chan = s.chan →
      Asleep (s.consoleread p seen target dst) := by
    intro hpc hch
    refine ⟨?_, ?_, ?_⟩
    · intro q target' dst' hq
      rw [hpc] at hq
      by_cases hqp : q = p
      · rw [hqp, Function.update_self] at hq
        cases hq
      · rw [Function.update_of_ne hqp] at hq
        exact h.reading q target' dst' hq
    · intro q c hq
      rw [hch] at hq
      rw [hpc, Function.update_of_ne (hne hq)]
      exact h.call q c hq
    · rw [hch]
      exact h.waits.mono hmono
  cases hran with
  | stop _ _ hpc hch _ => exact hidle hpc hch
  | all _ hpc hch _ _ => exact hidle hpc hch
  | sleep hempty _ hpc hch =>
    rw [hempty] at htaken
    cases htaken with
    | empty bs hbs _ heq hlt hnil =>
      refine ⟨?_, ?_, ?_⟩
      · intro q target' dst' hq
        rw [hpc] at hq
        by_cases hqp : q = p
        · rw [hqp, Function.update_self] at hq
          cases hq
          rw [heq, List.length_append]
          exact ⟨hplain.append hbs, by omega⟩
        · rw [Function.update_of_ne hqp] at hq
          exact h.reading q target' dst' hq
      · intro q c hq
        rw [hpc]
        by_cases hqp : q = p
        · rw [hqp, Function.update_self]
          exact Pc.noConfusion
        · rw [hch, sleep_ne hqp] at hq
          rw [Function.update_of_ne hqp]
          exact h.call q c hq
      · rw [hch]
        exact (h.waits.mono hmono).sleep hnil

theorem step {a : Action P} (h : Asleep s) (he : Edited s) (hs : Console.step s a = some t) :
    Asleep t := by
  cases a with
  | intr cs =>
    cases hs
    exact h.consoleintr he cs
  | read p n =>
    obtain ⟨⟨hidle, -⟩, hs⟩ := Option.ite_none_right_eq_some.mp hs
    cases hs
    refine ⟨?_, ?_, h.waits⟩
    · intro q target dst hq
      have hq' : Function.update s.pc p (.consoleread n []) q = .consoleread target dst := hq
      by_cases hqp : q = p
      · rw [hqp, Function.update_self] at hq'
        cases hq'
        exact ⟨plain_nil, Nat.zero_le _⟩
      · rw [Function.update_of_ne hqp] at hq'
        exact h.reading q target dst hq'
    · intro q c hq
      have hcall := h.call q c hq
      have hqp : q ≠ p := by
        intro hqp
        rw [hqp] at hcall
        exact hcall hidle
      show Function.update s.pc p _ q ≠ .idle
      rw [Function.update_of_ne hqp]
      exact hcall
  | run p seen =>
    obtain ⟨⟨hchan, -⟩, hs⟩ := Option.ite_none_right_eq_some.mp hs
    unfold State.run at hs
    cases hp : s.pc p with
    | idle =>
      rw [hp] at hs
      cases hs
    | consoleread target dst =>
      rw [hp] at hs
      cases hs
      exact h.consoleread hp hchan
  | kill p =>
    cases hs
    refine ⟨h.reading, ?_, h.waits.rouse⟩
    intro q c hq
    have hq' : rouse s.chan p q = some c := hq
    unfold rouse at hq'
    by_cases hqp : q = p
    · rw [hqp, Function.update_self] at hq'
      cases hq'
    · rw [Function.update_of_ne hqp] at hq'
      exact h.call q c hq'

end Asleep

omit [DecidableEq P] in
theorem Edited.consoleinit (buf : Fin INPUT_BUF → Byte) :
    Edited (consoleinit buf : State P) ∧ Asleep (Console.consoleinit buf : State P) := by
  have hready : (Console.consoleinit buf : State P).input.editor.ready = [] :=
    Input.ready_eq_nil.mpr rfl
  have hline : (Console.consoleinit buf : State P).input.editor.line = [] :=
    Input.line_eq_nil.mpr rfl
  refine ⟨⟨?_, ?_, ?_, ?_⟩, ⟨?_, ?_, Waits.nobody⟩⟩
  · show ((0 : BitVec 32) - 0).toNat + ((0 : BitVec 32) - 0).toNat ≤ 128
    decide
  · intro _
    exact hline
  · rw [hline]
    exact plain_nil
  · rw [hready, hline]
    rfl
  · intro q target dst hq
    cases hq
  · intro q c hq
    cases hq

theorem edited_asleep {buf : Fin INPUT_BUF → Byte} (hr : Reachable step (consoleinit buf) s) :
    Edited s ∧ Asleep s := by
  refine hr.invariant (I := fun s : State P => Edited s ∧ Asleep s) (Edited.consoleinit buf) ?_
  intro u a v hu _ hs
  exact ⟨hu.1.step hs, hu.2.step hu.1 hs⟩

/-- In every run of keys and readers the buffer is a line editor: the screen shows what was read,
what can be read and the line, each key edits the line only, and each run of a reader takes the
next characters, as far as the end of a line or of a file. -/
theorem edited_of_reach {buf : Fin INPUT_BUF → Byte} (hr : Reachable step (consoleinit buf) s) :
    Edited s ∧
    (∀ cs t, step s (.intr cs) = some t →
      t.input.editor = cs.foldl Editor.key s.input.editor ∧ t.taken = s.taken) ∧
    ∀ p seen target dst t, s.pc p = .consoleread target dst → step s (.run p seen) = some t →
      ReadLaw s t p seen target dst := by
  obtain ⟨hedited, hasleep⟩ := edited_asleep hr
  refine ⟨hedited, ?_, ?_⟩
  · intro cs t hs
    cases hs
    exact ⟨(hedited.consoleintr cs).2, hedited.taken_consoleintr cs⟩
  · intro p seen target dst t hp hs
    obtain ⟨-, hs⟩ := Option.ite_none_right_eq_some.mp hs
    unfold State.run at hs
    rw [hp] at hs
    cases hs
    obtain ⟨hplain, hdst⟩ := hasleep.reading p target dst hp
    exact consoleread_law s p seen hplain hdst

/-- Somebody types `lx`, a backspace, `s` and return, for a reader that waits. -/
def typedLine : State Unit :=
  (run step (consoleinit fun _ => 0) [.read () 9, .run () false,
    .intr [chr 'l', chr 'x', C 'H', chr 's', chr '\r'], .run () false]).getD (consoleinit fun _ => 0)

theorem edited_of_reach_typedLine :
    typedLine.copied () = [chr 'l', chr 's', chr '\n'] ∧ Edited typedLine :=
  ⟨by decide +kernel, (edited_of_reach (reachable_of_run (eq_some_getD (by decide +kernel)))).1⟩

/-- Whoever sleeps finds nothing to read, and the end of a line wakes everybody: as long as
somebody sleeps there is room for it. -/
theorem asleep_of_reach {buf : Fin INPUT_BUF → Byte} (hr : Reachable step (consoleinit buf) s)
    (hp : s.chan p = some .r) :
    s.input.editor.ready = [] ∧ ∃ t, step s (.intr [chr '\n']) = some t ∧
      (∀ q, t.chan q = none) ∧ t.input.editor.ready = s.input.editor.line ++ [chr '\n'] := by
  obtain ⟨hedited, hasleep⟩ := edited_asleep hr
  have hnil := hasleep.waits p _ hp
  have hlt : s.input.editor.size < INPUT_BUF := by
    by_contra hno
    have hle := hedited.fits.size_le
    have hfull : s.input.editor.size = INPUT_BUF := Nat.le_antisymm hle (Nat.le_of_not_lt hno)
    have hline := hedited.full hfull
    unfold Editor.size at hfull
    rw [hnil, hline] at hfull
    cases hfull
  have hkey : s.key (chr '\n') = s.store (chr '\n') := by
    unfold State.key
    rw [hedited.fits.size_eq, if_neg (by decide), if_neg (by decide), if_neg (by decide),
      if_pos ⟨by decide, hlt⟩, if_neg (by decide)]
  refine ⟨hnil, _, rfl, ?_, ?_⟩
  · intro q
    show (s.key (chr '\n')).chan q = none
    rw [hkey]
    unfold State.store
    rw [if_pos (.inl rfl)]
    show wakeup s.chan .r q = none
    cases hq : s.chan q with
    | none => exact wakeup_none hq
    | some c =>
      cases c
      exact if_pos hq
  · show (s.key (chr '\n')).input.editor.ready = _
    rw [hkey, (hedited.store hlt).2]
    unfold Editor.add
    rw [if_pos (.inl rfl), hnil]
    rfl

def readerWaits : State Unit :=
  (run step (consoleinit fun _ => 0) [.read () 9, .run () false, .intr [chr 'l', chr 's']]).getD
    (consoleinit fun _ => 0)

theorem asleep_of_reach_readerWaits : readerWaits.chan () = some .r ∧
    ∃ t, step readerWaits (.intr [chr '\n']) = some t ∧ t.chan () = none := by
  have hr : Reachable step (consoleinit fun _ => 0) readerWaits :=
    reachable_of_run (eq_some_getD (by decide +kernel))
  have hchan : readerWaits.chan () = some .r := by decide +kernel
  obtain ⟨-, t, hs, hwoken, -⟩ := asleep_of_reach hr hchan
  exact ⟨hchan, t, hs, hwoken ()⟩

end Xv6.Console
