import Xv6.Disk.Journal
import Xv6.Lib.RedoLog

/-!
# Writing the log and installing it (project3/log.c:69-82, 171-184)

Specifications of the two copying loops and of `write_head`, from which those of
`commit` and of recovery are put together. While `write_log` runs the header on
disk is empty, so only home blocks count; once `write_head` is through, replaying
the log yields the contents that the cache had, whatever has been installed yet.
-/

namespace Xv6.Disk
open Crash Buffer RedoLog

/-- What a list of logged blocks is like. -/
structure Area.LogOk (A : Area) (lh : List Nat) : Prop where
  nodup : lh.Nodup
  home : ∀ b ∈ lh, A.Home b
  range : ∀ b ∈ lh, b < FSSIZE
  length : lh.length ≤ LOGSIZE
  fits : lh.length + 1 ≤ A.size

theorem Area.logOk_nil (A : Area) : A.LogOk [] :=
  ⟨List.nodup_nil, fun _ h => absurd h List.not_mem_nil, fun _ h => absurd h List.not_mem_nil,
    Nat.zero_le _, A.pos⟩

theorem Area.not_home_start (A : Area) : ¬ A.Home A.start := by
  have := A.pos
  unfold Area.Home
  omega

theorem Area.not_home_log (A : Area) {i : Nat} (h : i + 1 < A.size) :
    ¬ A.Home (A.start + i + 1) := by
  unfold Area.Home
  omega

/-- Copy `i` of the log. -/
def Area.copies (A : Area) (d : Nat → Block) (i : Nat) : Block := d (A.start + i + 1)

/-- Recovery from the disk `d` produces the home blocks of `τ`. -/
structure Area.Recovers (A : Area) (d τ : Nat → Block) : Prop where
  ok : A.LogOk (decodeHead (d A.start))
  home : ∀ b, A.Home b → replay (A.copies d) (decodeHead (d A.start)) d b = τ b

variable {A : Area} {H : Prop} {C : Machine → Prop} {s : Machine} {σ τ : Nat → Block}
  {lh : List Nat}

/-! ### write_log -/

/-- The outcome of `write_log`: the log blocks have the contents of the logged ones. -/
structure LogWritten (A : Area) (lh : List Nat) (s : Machine) (σ : Nat → Block) (t : Machine) :
    Prop where
  same : Same s t
  head : t.disk A.start = s.disk A.start
  home : ∀ b, A.Home b → t.disk b = s.disk b
  pinned : ∀ b, t.Pinned b ↔ s.Pinned b
  sees : ∃ σ', Sees t σ' ∧ (∀ b, A.Home b → σ' b = σ b) ∧
    ∀ i b, lh[i]? = some b → A.copies σ' i = σ b

theorem writeLog_spec (hok : A.LogOk lh) (done bs : List Nat) (hlh : lh = done ++ bs)
    {s : Machine} {σ : Nat → Block} (h : Sees s σ) (hpin : ∀ b, s.Pinned b → A.Home b)
    (hdone : ∀ i b, i < done.length → lh[i]? = some b → A.copies σ i = σ b)
    (hC : ∀ t, Same s t → t.disk A.start = s.disk A.start →
      (∀ b, A.Home b → t.disk b = s.disk b) → C t) :
    wp True C (writeLog A.start done.length bs) (fun _ t => LogWritten A lh s σ t) s := by
  induction bs generalizing done s σ with
  | nil =>
    refine wp_pure ⟨Same.refl s, rfl, fun _ _ => rfl, fun _ => Iff.rfl, σ, h, fun _ _ => rfl, ?_⟩
    intro i b hi
    refine hdone i b ?_ hi
    rw [List.append_nil] at hlh
    rw [← hlh]
    exact (List.getElem?_eq_some_iff.mp hi).1
  | cons b bs ih =>
    have hb : b ∈ lh := by rw [hlh]; simp
    have hlen : lh.length = done.length + (bs.length + 1) := by rw [hlh]; simp
    have hfits := hok.fits
    have hnh : ¬ A.Home (A.start + done.length + 1) := A.not_home_log (by omega)
    have hns : A.start + done.length + 1 ≠ A.start := by omega
    have hne : b ≠ A.start + done.length + 1 := by
      rintro rfl
      exact hnh (hok.home _ hb)
    refine wp_seq (bread_spec h (Or.inl trivial)) fun i t hi => ?_
    refine wp_seq (bread_spec hi.sees (Or.inl trivial)) fun j u hj => ?_
    have hij := hj.keep hi.refcnt
    have hut : u.disk = s.disk := hj.disk.trans hi.disk
    have hsame : Same s u := hi.same.trans hj.same
    refine copy_spec hj.sees hj.blockno hj.valid (b := A.start + done.length + 1)
      (by rw [hij.2]; exact hi.blockno) (by rw [hij.2]; exact hi.valid) ?_ fun hc => ?_
    · refine hC _ (hsame.trans (Same.written u _ _ _)) ?_ ?_
      · show Function.update u.disk _ _ _ = _
        rw [Function.update_of_ne (Ne.symm hns), hut]
      · intro b' hb'
        show Function.update u.disk _ _ _ = _
        rw [Function.update_of_ne ?_, hut]
        rintro rfl
        exact hnh hb'
    · generalize ((u.written i (A.start + done.length + 1) (σ b)).released j).released i = v at hc
      have hsv : Same s v := hsame.trans hc.same
      have hhead : v.disk A.start = s.disk A.start := by
        rw [hc.disk, Function.update_of_ne (Ne.symm hns), hut]
      have hhome : ∀ b', A.Home b' → v.disk b' = s.disk b' := by
        intro b' hb'
        rw [hc.disk, Function.update_of_ne ?_, hut]
        rintro rfl
        exact hnh hb'
      have hpv : ∀ b', v.Pinned b' ↔ s.Pinned b' := by
        intro b'
        rw [hc.pinned, hj.pinned, hi.pinned]
        refine ⟨fun hp => hp.1, fun hp => ⟨hp, ?_⟩⟩
        rintro rfl
        exact hnh (hpin _ hp)
      have hσ : ∀ b', A.Home b' →
          Function.update σ (A.start + done.length + 1) (σ b) b' = σ b' := by
        intro b' hb'
        refine Function.update_of_ne ?_ _ _
        rintro rfl
        exact hnh hb'
      have hnext := ih (done ++ [b]) (by rw [hlh]; simp) hc.sees
        (fun b' hp => hpin b' ((hpv b').mp hp)) ?_ ?_
      · rw [List.length_append, List.length_singleton] at hnext
        refine wp_mono hnext fun _ w hw => ?_
        obtain ⟨σ', hs', hh', hl'⟩ := hw.sees
        refine ⟨hsv.trans hw.same, hw.head.trans hhead, fun b' hb' => ?_, fun b' => ?_, σ', hs',
          fun b' hb' => ?_, fun k b' hk => ?_⟩
        · rw [hw.home b' hb', hhome b' hb']
        · rw [hw.pinned, hpv]
        · rw [hh' b' hb', hσ b' hb']
        · rw [hl' k b' hk, hσ b' (hok.home b' (List.mem_of_getElem? hk))]
      · intro k b' hk hkb
        rw [List.length_append, List.length_singleton] at hk
        rw [hσ b' (hok.home b' (List.mem_of_getElem? hkb))]
        unfold Area.copies
        by_cases hkd : k = done.length
        · subst hkd
          rw [Function.update_self]
          have : b = b' := by
            rw [hlh, List.getElem?_append_right (Nat.le_refl _), Nat.sub_self] at hkb
            simpa using hkb
          rw [this]
        · rw [Function.update_of_ne (by omega)]
          exact hdone k b' (by omega) hkb
      · intro w hw hwh hwb
        refine hC w (hsv.trans hw) (hwh.trans hhead) fun b' hb' => ?_
        rw [hwb b' hb', hhome b' hb']

/-! ### install_trans -/

/-- The outcome of `install_trans`: the home blocks have the contents `τ`, and
nothing is left in the cache alone. -/
structure Installed (A : Area) (s : Machine) (τ : Nat → Block) (t : Machine) : Prop where
  same : Same s t
  head : t.disk A.start = s.disk A.start
  home : ∀ b, A.Home b → t.disk b = τ b
  pinned : ∀ b, ¬ t.Pinned b
  sees : ∃ σ, Sees t σ

theorem installTrans_spec (hok : A.LogOk lh) (done bs : List Nat) (hlh : lh = done ++ bs)
    {s : Machine} {σ : Nat → Block} (h : Sees s σ) (hpin : ∀ b, s.Pinned b → b ∈ bs)
    (hrep : ∀ b, A.Home b → replay (A.copies σ) lh σ b = τ b)
    (hdone : ∀ i b, i < done.length → lh[i]? = some b → σ b = A.copies σ i)
    (hclean : H ∨ Clean s)
    (hC : ∀ t, Same s t → t.disk A.start = s.disk A.start →
      (∀ b, A.Home b → replay (A.copies t.disk) lh t.disk b = τ b) → C t) :
    wp H C (installTrans A.start done.length bs)
      (fun _ t => Installed A s τ t ∧ (H ∨ Clean t)) s := by
  induction bs generalizing done s σ with
  | nil =>
    rw [List.append_nil] at hlh
    have hnp : ∀ b, ¬ s.Pinned b := fun b hp => List.not_mem_nil (hpin b hp)
    refine wp_pure ⟨⟨Same.refl s, rfl, fun b hb => ?_, hnp, σ, h⟩, hclean⟩
    rw [h.disk b (hnp b), ← hrep b hb, replay_of_installed]
    intro i c hi
    refine hdone i c ?_ hi
    rw [← hlh]
    exact (List.getElem?_eq_some_iff.mp hi).1
  | cons b bs ih =>
    have hb : b ∈ lh := by rw [hlh]; simp
    have hlen : lh.length = done.length + (bs.length + 1) := by rw [hlh]; simp
    have hfits := hok.fits
    have harea := A.fits
    have hnh : ∀ i, i < lh.length → ¬ A.Home (A.start + i + 1) :=
      fun i hi => A.not_home_log (by omega)
    have hns : ∀ c, A.Home c → c ≠ A.start := by
      rintro c hc rfl
      exact A.not_home_start hc
    have hne : b ≠ A.start + done.length + 1 := by
      rintro rfl
      exact hnh _ (by omega) (hok.home _ hb)
    refine wp_seq (bread_spec h (hclean.imp_right fun hc => hc.ready (by omega))) fun i t hi => ?_
    refine wp_seq (bread_spec hi.sees
      (hclean.imp_right fun hc => hc.ready_after hi (hok.range b hb) hne)) fun j u hj => ?_
    have hij := hj.keep hi.refcnt
    have hut : u.disk = s.disk := hj.disk.trans hi.disk
    have hsame : Same s u := hi.same.trans hj.same
    have hpu : ∀ c, u.Pinned c ↔ s.Pinned c := fun c => (hj.pinned c).trans (hi.pinned c)
    -- Seen through the disk or through the cache, the log and the blocks outside it agree.
    have hcopy : ∀ k, k < lh.length → ∀ v,
        A.copies (Function.update u.disk b v) k = A.copies σ k := by
      intro k hk v
      unfold Area.copies
      have hbk : A.start + k + 1 ≠ b := by
        rintro rfl
        exact hnh k hk (hok.home _ hb)
      rw [Function.update_of_ne hbk]
      refine hj.sees.disk _ fun hp => hnh k hk (hok.home _ ?_)
      rw [hlh]
      exact List.mem_append_right _ (hpin _ ((hpu _).mp hp))
    have hbase : ∀ c v, c ∉ lh → Function.update u.disk b v c = σ c := by
      intro c v hc
      have hcb : c ≠ b := by
        rintro rfl
        exact hc hb
      rw [Function.update_of_ne hcb]
      refine hj.sees.disk c fun hp => hc ?_
      rw [hlh]
      exact List.mem_append_right _ (hpin c ((hpu c).mp hp))
    refine copy_spec hj.sees (b := b) (by rw [hij.2]; exact hi.blockno)
      (by rw [hij.2]; exact hi.valid) hj.blockno hj.valid ?_ fun hc => ?_
    · refine hC _ (hsame.trans (Same.written u _ _ _)) ?_ ?_
      · show Function.update u.disk _ _ _ = _
        rw [Function.update_of_ne (hns b (hok.home b hb)).symm, hut]
      · intro c hcc
        rw [← hrep c hcc]
        exact replay_congr (fun k hk => hcopy k hk _) fun d hd => hbase d _ hd
    · have hclean' : H ∨ Clean (((u.written j b (σ (A.start + done.length + 1))).released i).released j) :=
        hclean.imp_right fun hcl => hcl.copied hi hj (Or.inl ⟨rfl, rfl⟩) hj.blockno
      generalize ((u.written j b (σ (A.start + done.length + 1))).released i).released j = v
        at hc hclean'
      have hsv : Same s v := hsame.trans hc.same
      have hhead : v.disk A.start = s.disk A.start := by
        rw [hc.disk, Function.update_of_ne (hns b (hok.home b hb)).symm, hut]
      have hcopy' : ∀ k, k < lh.length →
          A.copies (Function.update σ b (σ (A.start + done.length + 1))) k = A.copies σ k := by
        intro k hk
        refine Function.update_of_ne ?_ _ _
        rintro rfl
        exact hnh k hk (hok.home _ hb)
      have hnext := ih (done ++ [b]) (by rw [hlh]; simp) hc.sees ?_ ?_ ?_ hclean' ?_
      · rw [List.length_append, List.length_singleton] at hnext
        refine wp_mono hnext fun _ w ⟨hw, hwc⟩ => ⟨?_, hwc⟩
        exact ⟨hsv.trans hw.same, hw.head.trans hhead, hw.home, hw.pinned, hw.sees⟩
      · intro c hp
        obtain ⟨hp', hcb⟩ := (hc.pinned c).mp hp
        rcases List.mem_cons.mp (hpin c ((hpu c).mp hp')) with h' | h'
        · exact absurd h' hcb
        · exact h'
      · intro c hcc
        rw [replay_congr hcopy' (fun _ _ => rfl), replay_update hb]
        exact hrep c hcc
      · intro k c hk hkc
        rw [List.length_append, List.length_singleton] at hk
        rw [hcopy' k (by omega)]
        by_cases hcb : c = b
        · subst hcb
          rw [Function.update_self]
          have hkd : k = done.length := by
            have hkl : k < lh.length := by omega
            refine (List.getElem?_inj hkl hok.nodup).mp ?_
            rw [hkc, hlh]
            simp
          rw [hkd]
          rfl
        · rw [Function.update_of_ne hcb]
          have hkd : k ≠ done.length := by
            rintro rfl
            rw [hlh, List.getElem?_append_right (Nat.le_refl _), Nat.sub_self] at hkc
            simp only [List.getElem?_cons_zero, Option.some.injEq] at hkc
            exact hcb hkc.symm
          exact hdone k c (by omega) hkc
      · intro w hw hwh hwb
        exact hC w (hsv.trans hw) (hwh.trans hhead) hwb

/-! ### write_head -/

/-- The outcome of `write_head`. -/
structure HeadWritten (A : Area) (s : Machine) (σ : Nat → Block) (t : Machine) : Prop where
  same : Same s t
  head : decodeHead (t.disk A.start) = s.log.lh
  disk : ∀ b, b ≠ A.start → t.disk b = s.disk b
  pinned : ∀ b, t.Pinned b ↔ s.Pinned b
  sees : ∃ σ', Sees t σ' ∧ ∀ b, b ≠ A.start → σ' b = σ b

theorem writeHead_spec (h : Sees s σ) (hstart : s.log.start = A.start) (hok : A.LogOk s.log.lh)
    (hpin : ¬ s.Pinned A.start) (hclean : H ∨ Clean s)
    (hC : ∀ t, Same s t → decodeHead (t.disk A.start) = s.log.lh →
      (∀ b, b ≠ A.start → t.disk b = s.disk b) → C t) :
    wp H C writeHead (fun _ t => HeadWritten A s σ t ∧ (H ∨ Clean t)) s := by
  have hpos := A.pos
  have hfits := A.fits
  refine wp_bind (wp_get ?_)
  rw [hstart]
  refine wp_seq (bread_spec h (hclean.imp_right fun hc => hc.ready (by omega))) fun i t hi => ?_
  refine wp_bind (wp_get ?_)
  generalize hw : encodeHead (t.buf i).data t.log.lh = w
  have hdec : decodeHead w = s.log.lh := by
    rw [← hw, hi.same.log]
    exact decodeHead_encodeHead _ _ hok.length hok.range
  have hwd : ∀ b, b ≠ A.start → (t.written i A.start w).disk b = s.disk b := by
    intro b hb
    show Function.update t.disk _ _ _ = _
    rw [Function.update_of_ne hb, hi.disk]
  have hwh : (t.written i A.start w).disk A.start = w := Function.update_self ..
  refine overwrite_spec hi.sees hi.blockno hi.valid ?_ (brelse_spec ?_)
  · exact hC _ (hi.same.trans (Same.written t i _ _)) (by rw [hwh, hdec]) hwd
  · have hs := (hi.sees.written (v := w) hi.blockno hi.valid).released i
    refine ⟨⟨(hi.same.trans (Same.written t i _ _)).trans (Same.released _ i), ?_, ?_, ?_, _, hs,
      fun b hb => Function.update_of_ne hb _ _⟩, ?_⟩
    · rw [Machine.released_disk, hwh, hdec]
    · intro b hb
      rw [Machine.released_disk, hwd b hb]
    · intro b
      rw [Machine.pinned_released, Machine.pinned_written hi.sees hi.blockno, hi.pinned]
      refine ⟨fun hp => hp.1, fun hp => ⟨hp, ?_⟩⟩
      rintro rfl
      exact hpin hp
    · refine hclean.imp_right fun hc j => ?_
      rw [Machine.released_buf]
      by_cases hji : j = i
      · subst hji
        rw [Machine.setBuf_self]
        simp [Machine.written, hi.refcnt]
      · rw [Machine.setBuf_ne _ _ _ _ hji, Machine.written, Machine.setBuf_ne _ _ _ _ hji]
        show (t.buf j).refcnt = 0 ∧ (t.buf j).dirty = false
        rw [hi.keep_ne hji]
        exact hc j

end Xv6.Disk
