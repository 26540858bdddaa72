import Mathlib.Logic.Basic

/-!
# Programs that can be cut off

A program over states `σ` runs to a result or halts. `persist` is an update that
survives a power cut, and a run lists the states right after each of them: these
are the points at which it can be cut. `wp H C p post s` says of the run of `p`
from `s` that every cut point satisfies `C`, that a result satisfies `post`, and
that it halts only if `H`. `Keeps f p` is the frame rule for what `p` never touches.
-/

namespace Xv6.Crash

universe u

variable {σ : Type*} {α β : Type u}

def Prog (σ α : Type*) := σ → List σ × Option (α × σ)

namespace Prog

def pure (a : α) : Prog σ α := fun s => ([], some (a, s))

def bind (p : Prog σ α) (k : α → Prog σ β) : Prog σ β := fun s =>
  match p s with
  | (ds, none) => (ds, none)
  | (ds, some (a, t)) => (ds ++ (k a t).1, (k a t).2)

instance : Monad (Prog σ) where
  pure := Prog.pure
  bind := Prog.bind

def halt : Prog σ α := fun _ => ([], none)

def get : Prog σ σ := fun s => ([], some (s, s))

def modify (f : σ → σ) : Prog σ Unit := fun s => ([], some ((), f s))

def persist (f : σ → σ) : Prog σ Unit := fun s => ([f s], some ((), f s))

end Prog

def wp (H : Prop) (C : σ → Prop) (p : Prog σ α) (post : α → σ → Prop) (s : σ) : Prop :=
  (∀ d ∈ (p s).1, C d) ∧
    match (p s).2 with
    | none => H
    | some (a, t) => post a t

variable {H : Prop} {C : σ → Prop} {s : σ} {post : α → σ → Prop}

theorem wp_pure {a : α} (h : post a s) : wp H C (pure a : Prog σ α) post s :=
  ⟨fun _ hd => absurd hd List.not_mem_nil, h⟩

theorem wp_get {post : σ → σ → Prop} (h : post s s) : wp H C Prog.get post s :=
  ⟨fun _ hd => absurd hd List.not_mem_nil, h⟩

theorem wp_modify {f : σ → σ} {post : Unit → σ → Prop} (h : post () (f s)) :
    wp H C (Prog.modify f) post s :=
  ⟨fun _ hd => absurd hd List.not_mem_nil, h⟩

theorem wp_persist {f : σ → σ} {post : Unit → σ → Prop} (hC : C (f s)) (h : post () (f s)) :
    wp H C (Prog.persist f) post s := by
  refine ⟨fun d hd => ?_, h⟩
  rw [List.mem_singleton.mp hd]
  exact hC

theorem wp_halt (h : H) : wp H C (Prog.halt : Prog σ α) post s :=
  ⟨fun _ hd => absurd hd List.not_mem_nil, h⟩

theorem wp_bind {p : Prog σ α} {k : α → Prog σ β} {post : β → σ → Prop}
    (h : wp H C p (fun a t => wp H C (k a) post t) s) : wp H C (p >>= k) post s := by
  obtain ⟨hds, hres⟩ := h
  show wp H C (Prog.bind p k) post s
  unfold wp Prog.bind
  match hp : p s with
  | (ds, none) =>
    rw [hp] at hds hres
    exact ⟨hds, hres⟩
  | (ds, some (a, t)) =>
    rw [hp] at hds hres
    refine ⟨fun d hd => ?_, hres.2⟩
    rcases List.mem_append.mp hd with hd | hd
    · exact hds d hd
    · exact hres.1 d hd

theorem wp_mono {p : Prog σ α} {post' : α → σ → Prop} (h : wp H C p post s)
    (himp : ∀ a t, post a t → post' a t) : wp H C p post' s := by
  refine ⟨h.1, ?_⟩
  have hres := h.2
  match hp : (p s).2 with
  | none =>
    rw [hp] at hres
    exact hres
  | some (a, t) =>
    rw [hp] at hres
    exact himp a t hres

theorem wp_stop {p : Prog σ α} {H' : Prop} (himp : H → H') (h : wp H C p post s) :
    wp H' C p post s := by
  refine ⟨h.1, ?_⟩
  have hres := h.2
  match hp : (p s).2 with
  | none =>
    rw [hp] at hres
    exact himp hres
  | some (a, t) =>
    rw [hp] at hres
    exact hres

theorem wp_cut {p : Prog σ α} {C' : σ → Prop} (himp : ∀ d, C d → C' d) (h : wp H C p post s) :
    wp H C' p post s :=
  ⟨fun d hd => himp d (h.1 d hd), h.2⟩

/-- Sequencing with an intermediate assertion. -/
theorem wp_seq {p : Prog σ α} {k : α → Prog σ β} {m : α → σ → Prop} {post : β → σ → Prop}
    (h : wp H C p m s) (hk : ∀ a t, m a t → wp H C (k a) post t) :
    wp H C (p >>= k) post s :=
  wp_bind (wp_mono h hk)

theorem wp_run {p : Prog σ α} (h : wp H C p post s) :
    wp H C p (fun a t => (p s).2 = some (a, t)) s := by
  refine ⟨h.1, ?_⟩
  have hres := h.2
  generalize (p s).2 = r at hres
  cases r with
  | none => exact hres
  | some r => rfl

theorem wp_result {p : Prog σ α} (h : wp H C p post s) {a : α} {t : σ}
    (hp : (p s).2 = some (a, t)) : post a t := by
  have hres := h.2
  rw [hp] at hres
  exact hres

theorem wp_total {p : Prog σ α} (h : wp False C p post s) :
    ∃ a t, (p s).2 = some (a, t) ∧ post a t := by
  have hres := h.2
  match hp : (p s).2 with
  | none =>
    rw [hp] at hres
    exact hres.elim
  | some (a, t) =>
    rw [hp] at hres
    exact ⟨a, t, rfl, hres⟩

/-! ### What a program leaves alone -/

/-- `p` changes `f` neither at a cut point nor in its result. -/
def Keeps {γ : Type*} (f : σ → γ) (p : Prog σ α) : Prop :=
  ∀ s, wp True (fun d => f d = f s) p (fun _ t => f t = f s) s

namespace Keeps

variable {γ : Type*} {f : σ → γ}

theorem pure (a : α) : Keeps f (Prog.pure a : Prog σ α) := fun _ => wp_pure rfl

theorem halt : Keeps f (Prog.halt : Prog σ α) := fun _ => wp_halt trivial

theorem modify {g : σ → σ} (h : ∀ s, f (g s) = f s) : Keeps f (Prog.modify g) :=
  fun s => wp_modify (h s)

theorem persist {g : σ → σ} (h : ∀ s, f (g s) = f s) : Keeps f (Prog.persist g) :=
  fun s => wp_persist (h s) (h s)

theorem get {σ : Type u} {f : σ → γ} {k : σ → Prog σ α} (h : ∀ s, Keeps f (k s)) :
    Keeps f (Prog.get >>= k) :=
  fun s => wp_bind (wp_get (h s s))

theorem seq {p : Prog σ α} {k : α → Prog σ β} (hp : Keeps f p) (hk : ∀ a, Keeps f (k a)) :
    Keeps f (p >>= k) := by
  intro s
  refine wp_seq (hp s) fun a t ht => ?_
  have hrest := hk a t
  rw [ht] at hrest
  exact hrest

end Keeps

end Xv6.Crash
