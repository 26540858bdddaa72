import Xv6.Io.Console

/-!
# The line editor

The circular buffer holds the finished text that nobody has read yet and the line that is being
edited. On these two lists a key does what a line editor does, and the echo shows them.
-/

namespace Xv6.Console
open Buffer Transition Wait

/-- A line editor: the text that can be read, and the line that is typed. -/
@[ext] structure Editor where
  ready : List Byte
  line : List Byte

namespace Editor

def size (x : Editor) : Nat := x.ready.length + x.line.length

/-- The line is finished by its last character or when there is no more room. -/
def add (x : Editor) (c : Byte) : Editor :=
  if c = chr '\n' ∨ c = C 'D' ∨ x.size + 1 = INPUT_BUF then ⟨x.ready ++ (x.line ++ [c]), []⟩
  else ⟨x.ready, x.line ++ [c]⟩

def key (x : Editor) (c : Byte) : Editor :=
  if c = C 'P' then x
  else if c = C 'U' then ⟨x.ready, []⟩
  else if c = C 'H' ∨ c = 127 then ⟨x.ready, x.line.dropLast⟩
  else if c ≠ 0 ∧ x.size < INPUT_BUF then x.add (if c = chr '\r' then chr '\n' else c)
  else x

end Editor

/-- No end of a line and no end of a file. -/
def Plain (bs : List Byte) : Prop := ∀ c ∈ bs, c ≠ chr '\n' ∧ c ≠ C 'D'

/-- What one call of `consputc` does to the text on the screen. -/
def Echo.apply (text : List Byte) : Echo → List Byte
  | .char c => text ++ [c]
  | .BACKSPACE => text.dropLast

def shown (out : List Echo) : List Byte := out.foldl Echo.apply []

theorem shown_append (out : List Echo) (x : Echo) : shown (out ++ [x]) = x.apply (shown out) := by
  unfold shown
  rw [List.foldl_append]
  rfl

namespace Input

variable {i : Input}

def editor (i : Input) : Editor := ⟨window i.buf i.r i.w, window i.buf i.w i.e⟩

/-- The three indices stand in their order. -/
def Fits (i : Input) : Prop := (i.w - i.r).toNat + (i.e - i.w).toNat ≤ INPUT_BUF

theorem length_ready : i.editor.ready.length = (i.w - i.r).toNat := Ring.length_window ..

theorem length_line : i.editor.line.length = i.editing := Ring.length_window ..

theorem Fits.size_le (h : i.Fits) : i.editor.size ≤ INPUT_BUF := by
  unfold Editor.size
  rw [length_ready, length_line]
  exact h

theorem Fits.size_eq (h : i.Fits) : (i.e - i.r).toNat = i.editor.size := by
  have hadd : i.e - i.r = (i.w - i.r) + (i.e - i.w) := by ring
  have hle : (i.w - i.r).toNat + (i.e - i.w).toNat ≤ 128 := h
  unfold Editor.size
  rw [length_ready, length_line, hadd, BitVec.toNat_add, Nat.mod_eq_of_lt (by omega)]
  rfl

theorem Fits.full_iff (h : i.Fits) :
    i.e = i.r + BitVec.ofNat 32 INPUT_BUF ↔ i.editor.size = INPUT_BUF := by
  rw [← h.size_eq]
  constructor
  · intro he
    have hsub : i.r + BitVec.ofNat 32 INPUT_BUF - i.r = BitVec.ofNat 32 INPUT_BUF := by ring
    rw [he, hsub]
    rfl
  · intro he
    have hsub : i.e - i.r = BitVec.ofNat 32 INPUT_BUF := BitVec.eq_of_toNat_eq he
    rw [← hsub]
    ring

theorem ready_eq_nil : i.editor.ready = [] ↔ i.r = i.w := Ring.window_eq_nil

theorem line_eq_nil : i.editor.line = [] ↔ i.w = i.e := Ring.window_eq_nil

theorem put_editor (h : i.Fits) (hlt : i.editor.size < INPUT_BUF) (c : Byte) :
    (i.put c).editor = ⟨i.editor.ready, i.editor.line ++ [c]⟩ := by
  have hsize := h.size_eq
  have hready := @length_ready i
  have hline := @length_line i
  unfold Editor.size at hsize hlt
  unfold editing at hline
  apply Editor.ext
  · have hle : (i.w - i.r).toNat ≤ (i.e - i.r).toNat := by omega
    have hroom : (i.e - i.r).toNat < INPUT_BUF := by omega
    exact Ring.window_update (by decide) hle hroom
  · have hroom : (i.e - i.w).toNat < INPUT_BUF := by omega
    exact Ring.window_push (by decide) hroom (by decide)

theorem Fits.put (h : i.Fits) (hlt : i.editor.size < INPUT_BUF) (c : Byte) : (i.put c).Fits := by
  have hput := put_editor h hlt c
  have hready := @length_ready (i.put c)
  have hline := @length_line (i.put c)
  rw [hput] at hready hline
  unfold Editor.size at hlt
  unfold editing at hline
  unfold Fits
  rw [← hready, ← hline, List.length_append]
  exact hlt

theorem commit_editor (h : i.Fits) :
    ({ i with w := i.e } : Input).editor = ⟨i.editor.ready ++ i.editor.line, []⟩ := by
  apply Editor.ext
  · have hle : (i.w - i.r).toNat + (i.e - i.w).toNat ≤ 128 := h
    have hlt : (i.w - i.r).toNat + (i.e - i.w).toNat < 2 ^ 32 := by omega
    exact Ring.window_split hlt
  · exact Ring.window_self ..

theorem Fits.commit (h : i.Fits) : ({ i with w := i.e } : Input).Fits := by
  have hle := h.size_le
  rw [← h.size_eq] at hle
  show (i.e - i.r).toNat + (i.e - i.e).toNat ≤ INPUT_BUF
  rw [BitVec.sub_self]
  exact hle

theorem line_unpush (hne : i.e ≠ i.w) :
    i.editor.line = ({ i with e := i.e - 1 } : Input).editor.line ++ [i.last] :=
  Ring.window_unpush (Ne.symm hne)

theorem erase_editor (hne : i.e ≠ i.w) :
    ({ i with e := i.e - 1 } : Input).editor = ⟨i.editor.ready, i.editor.line.dropLast⟩ := by
  rw [line_unpush hne, List.dropLast_concat]
  rfl

theorem Fits.erase (h : i.Fits) (hne : i.e ≠ i.w) : ({ i with e := i.e - 1 } : Input).Fits := by
  have hlen := congrArg List.length (line_unpush hne)
  rw [List.length_append, length_line, length_line] at hlen
  have hle : (i.w - i.r).toNat + i.editing ≤ INPUT_BUF := h
  show (i.w - i.r).toNat + ({ i with e := i.e - 1 } : Input).editing ≤ INPUT_BUF
  omega

end Input

variable {P : Type*} {s t : State P} {p : P} {seen : Bool}

/-- The buffer is never full of a line that cannot be finished, and the screen shows what was read,
what can be read and what is being edited. -/
structure Edited (s : State P) : Prop where
  fits : s.input.Fits
  full : s.input.editor.size = INPUT_BUF → s.input.editor.line = []
  line : Plain s.input.editor.line
  text : shown s.out = s.taken ++ (s.input.editor.ready ++ s.input.editor.line)

namespace Edited

theorem erase (h : Edited s) (hne : s.input.e ≠ s.input.w) :
    Edited s.erase ∧ s.erase.input.editor = ⟨s.input.editor.ready, s.input.editor.line.dropLast⟩ := by
  have hed : s.erase.input.editor = ⟨s.input.editor.ready, s.input.editor.line.dropLast⟩ :=
    Input.erase_editor hne
  have hnil : s.input.editor.line ≠ [] := fun hno => hne (Input.line_eq_nil.mp hno).symm
  refine ⟨⟨h.fits.erase hne, ?_, ?_, ?_⟩, hed⟩
  · intro hfull
    have hle := h.fits.size_le
    have hpos := List.length_pos_iff.mpr hnil
    rw [hed] at hfull
    unfold Editor.size at hfull hle
    dsimp only at hfull
    rw [List.length_dropLast] at hfull
    omega
  · rw [hed]
    intro c hc
    exact h.line c (List.mem_of_mem_dropLast hc)
  · have hshown := shown_append s.out .BACKSPACE
    rw [h.text] at hshown
    rw [hed]
    show shown (s.out ++ [.BACKSPACE]) = s.taken ++ (s.input.editor.ready ++ s.input.editor.line.dropLast)
    rw [hshown]
    unfold Echo.apply
    rw [← List.append_assoc, ← List.append_assoc, List.dropLast_append_of_ne_nil hnil]

/-- No character of the line ends it, and so the loop takes the whole line. -/
theorem killLine (n : Nat) (h : Edited s) (hn : s.input.editing ≤ n) :
    Edited (s.killLine n) ∧ (s.killLine n).input.editor = ⟨s.input.editor.ready, []⟩ := by
  induction n generalizing s with
  | zero =>
    refine ⟨h, ?_⟩
    have hlen := @Input.length_line s.input
    refine Editor.ext rfl (List.length_eq_zero_iff.mp ?_)
    show s.input.editor.line.length = 0
    omega
  | succ n ih =>
    unfold State.killLine
    by_cases hne : s.input.e = s.input.w
    · rw [if_neg fun hno => hno.1 hne]
      refine ⟨h, Editor.ext rfl ?_⟩
      exact Input.line_eq_nil.mpr hne.symm
    · have hlast := Input.line_unpush hne
      have hmem : s.input.last ∈ s.input.editor.line := by
        rw [hlast]
        exact List.mem_append_right _ (List.mem_singleton_self _)
      rw [if_pos ⟨hne, (h.line _ hmem).1⟩]
      obtain ⟨herase, hed⟩ := h.erase hne
      have hlen := congrArg List.length (congrArg Editor.line hed)
      rw [Input.length_line, List.length_dropLast, Input.length_line] at hlen
      obtain ⟨hkill, hed'⟩ := ih herase (by omega)
      refine ⟨hkill, ?_⟩
      rw [hed', hed]

theorem store (h : Edited s) {c : Byte} (hlt : s.input.editor.size < INPUT_BUF) :
    Edited (s.store c) ∧ (s.store c).input.editor = s.input.editor.add c := by
  have hput := Input.put_editor h.fits hlt c
  have hfits := h.fits.put hlt c
  have hsize : (s.input.put c).editor.size = s.input.editor.size + 1 := by
    rw [hput]
    unfold Editor.size
    rw [List.length_append]
    rfl
  have hshown : shown (s.out ++ [.char c]) =
      s.taken ++ (s.input.editor.ready ++ (s.input.editor.line ++ [c])) := by
    rw [shown_append, h.text]
    unfold Echo.apply
    simp only [List.append_assoc]
  have hcond : (c = chr '\n' ∨ c = C 'D' ∨ (s.input.put c).e = (s.input.put c).r +
      BitVec.ofNat 32 INPUT_BUF) ↔
      c = chr '\n' ∨ c = C 'D' ∨ s.input.editor.size + 1 = INPUT_BUF := by
    rw [hfits.full_iff, hsize]
  unfold State.store Editor.add
  dsimp only
  by_cases hend : c = chr '\n' ∨ c = C 'D' ∨ s.input.editor.size + 1 = INPUT_BUF
  · rw [if_pos (hcond.mpr hend), if_pos hend]
    have hcommit := Input.commit_editor hfits
    rw [hput] at hcommit
    refine ⟨⟨hfits.commit, ?_, ?_, ?_⟩, hcommit⟩
    · intro _
      exact congrArg Editor.line hcommit
    · show Plain ({ s.input.put c with w := (s.input.put c).e } : Input).editor.line
      rw [hcommit]
      intro b hb
      cases hb
    · show shown (s.out ++ [.char c]) = s.taken ++
        (({ s.input.put c with w := (s.input.put c).e } : Input).editor.ready ++
          ({ s.input.put c with w := (s.input.put c).e } : Input).editor.line)
      rw [hcommit, hshown, List.append_nil]
  · rw [if_neg fun hno => hend (hcond.mp hno), if_neg hend]
    rw [not_or, not_or] at hend
    refine ⟨⟨hfits, ?_, ?_, ?_⟩, hput⟩
    · intro hfull
      exact absurd (hsize.symm.trans hfull) hend.2.2
    · show Plain (s.input.put c).editor.line
      rw [hput]
      intro b hb
      obtain hold | hnew := List.mem_append.mp hb
      · exact h.line b hold
      · rw [List.mem_singleton.mp hnew]
        exact ⟨hend.1, hend.2.1⟩
    · show shown (s.out ++ [.char c]) =
        s.taken ++ ((s.input.put c).editor.ready ++ (s.input.put c).editor.line)
      rw [hput, hshown]

theorem key (h : Edited s) (c : Byte) :
    Edited (s.key c) ∧ (s.key c).input.editor = s.input.editor.key c := by
  unfold State.key Editor.key
  rw [h.fits.size_eq]
  by_cases hp : c = C 'P'
  · rw [if_pos hp, if_pos hp]
    exact ⟨h, rfl⟩
  rw [if_neg hp, if_neg hp]
  by_cases hu : c = C 'U'
  · rw [if_pos hu, if_pos hu]
    exact h.killLine _ (Nat.le_refl _)
  rw [if_neg hu, if_neg hu]
  by_cases hh : c = C 'H' ∨ c = 127
  · rw [if_pos hh, if_pos hh]
    by_cases hne : s.input.e = s.input.w
    · rw [if_neg fun hno => hno hne]
      refine ⟨h, Editor.ext rfl ?_⟩
      rw [Input.line_eq_nil.mpr hne.symm]
      rfl
    · rw [if_pos hne]
      exact h.erase hne
  rw [if_neg hh, if_neg hh]
  by_cases hroom : c ≠ 0 ∧ s.input.editor.size < INPUT_BUF
  · rw [if_pos hroom, if_pos hroom]
    exact h.store hroom.2
  · rw [if_neg hroom, if_neg hroom]
    exact ⟨h, rfl⟩

theorem consoleintr (h : Edited s) (cs : List Byte) :
    Edited (s.consoleintr cs) ∧ (s.consoleintr cs).input.editor = cs.foldl Editor.key s.input.editor := by
  induction cs generalizing s with
  | nil => exact ⟨h, rfl⟩
  | cons c cs ih =>
    obtain ⟨hkey, hed⟩ := h.key c
    obtain ⟨hrest, hed'⟩ := ih hkey
    refine ⟨hrest, ?_⟩
    rw [List.foldl_cons, ← hed]
    exact hed'

end Edited

end Xv6.Console
