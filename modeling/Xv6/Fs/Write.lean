import Xv6.Fs.File

/-!
# What a write does to the files

After `writei` a file has its old bytes patched with the source, and no other file
has changed: the blocks are owned, so nobody else has them.
-/

namespace Xv6.Fs
open Buffer Forest

/-- The bytes of the range that a write goes over. -/
def Dirty (i off r : Nat) (p : Place) (k : Nat) : Prop :=
  ∃ o, off ≤ o ∧ o < off + r ∧ p = place i (o / BSIZE) ∧ k = o % BSIZE

/-- The places that a write of `r` bytes at `off` may have to fill. -/
def touched (i off r : Nat) : Finset Place :=
  ((List.range' (off / BSIZE) ((off + r + BSIZE - 1) / BSIZE - off / BSIZE)).flatMap
    (branch i)).toFinset

variable {sb : Superblock} {devsw : Fin NDEV → Devsw} {S : Finset Place}
  {D : Place → Nat → Prop} {T T' : AddrTable} {σ τ : Contents} {H : Panic → Prop} {ip : Inode}
  {src : List Byte} {off r i : Nat}

theorem mem_touched {o : Nat} (ho : off ≤ o) (ho' : o < off + r) {p : Place}
    (hp : p ∈ branch i (o / BSIZE)) : p ∈ touched i off r := by
  refine List.mem_toFinset.mpr (List.mem_flatMap.mpr ⟨o / BSIZE, ?_, hp⟩)
  rw [List.mem_range'_1]
  refine ⟨Nat.div_le_div_right ho, ?_⟩
  show o / 512 < off / 512 + ((off + r + 512 - 1) / 512 - off / 512)
  omega

theorem valid_touched (hi : i < sb.ninodes) {p : Place} (hp : p ∈ touched i off r) :
    (shape sb).Valid p := by
  obtain ⟨bn, -, hp⟩ := List.mem_flatMap.mp (List.mem_toFinset.mp hp)
  exact valid_of_mem_branch hi hp

theorem inum_of_mem_touched {p : Place} (hp : p ∈ touched i off r) : p.1.1 = i := by
  obtain ⟨bn, -, hp⟩ := List.mem_flatMap.mp (List.mem_toFinset.mp hp)
  obtain ⟨js, -, rfl⟩ := List.mem_map.mp hp
  rfl

theorem dirty_mono {off' r' : Nat} (h : off ≤ off') (h' : off' + r' ≤ off + r) (p : Place) (k : Nat)
    (hd : Dirty i off' r' p k) : Dirty i off r p k := by
  obtain ⟨o, ho, ho', hp, hk⟩ := hd
  exact ⟨o, by omega, by omega, hp, hk⟩

theorem not_dirty {o j : Nat} (hmax : off + r ≤ MAXFILE * BSIZE) (hmo : o < MAXFILE * BSIZE)
    (h : j ≠ i ∨ o < off ∨ off + r ≤ o) : ¬ Dirty i off r (place j (o / BSIZE)) (o % BSIZE) := by
  rintro ⟨o', ho, ho', hp, hk⟩
  have hlt : ∀ x, x < MAXFILE * BSIZE → x / BSIZE < MAXFILE := by
    intro x hx
    have hx' : x < MAXFILE * 512 := hx
    show x / 512 < MAXFILE
    omega
  obtain ⟨hij, hd⟩ := place_inj (hlt o hmo) (hlt o' (by omega)) hp
  have hoo : o = o' := by rw [← Nat.div_add_mod o BSIZE, ← Nat.div_add_mod o' BSIZE, hd, hk]
  omega

/-- What the loop of `writei` leaves. -/
structure Wrote (sb : Superblock) (S : Finset Place) (T : AddrTable) (σ : Contents) (ip : Inode)
    (src : List Byte) (off r : Nat) (ip' : Inode) (τ : Contents) : Prop where
  inode : ip' = { ip with addrs := ip'.addrs }
  ext : Extends sb S (Dirty ip.inum off r) T σ (Function.update T ip.inum ip'.addrs) τ
  here : ∀ o, off ≤ o → o < off + r →
    Present (Function.update T ip.inum ip'.addrs) τ ip.inum o ∧
    fileByte (Function.update T ip.inum ip'.addrs) τ ip.inum o = src.getD (o - off) 0
  found : (∀ o, off ≤ o → o < off + r → Present T σ ip.inum o) → ip'.addrs = ip.addrs

/-- The write of one turn: the bytes of the piece are there, the rest is as before. -/
theorem extends_piece {m : Nat} (h : Consistent sb T σ) (hi : i < sb.ninodes)
    (hS : ∀ p ∈ S, (shape sb).Valid p) (hp : Present T σ i off) (hm : m ≤ BSIZE - off % BSIZE)
    (hlen : src.length = m) :
    Extends sb S (Dirty i off m) T σ T (Function.update σ (blockAt T σ (place i (off / BSIZE)))
      (patch (σ (blockAt T σ (place i (off / BSIZE)))) (off % BSIZE) src)) ∧
    ∀ o, off ≤ o → o < off + m →
      fileByte T (Function.update σ (blockAt T σ (place i (off / BSIZE)))
        (patch (σ (blockAt T σ (place i (off / BSIZE)))) (off % BSIZE) src)) i o
        = src.getD (o - off) 0 := by
  have hleaf : Leaf sb (place i (off / BSIZE)) := leaf_place hi (off / BSIZE)
  have hm' : m ≤ 512 - off % 512 := hm
  have hmod : off % BSIZE = off % 512 := rfl
  refine ⟨h.extends_leaf hleaf hp hS fun k hk => ?_, fun o ho ho' => ?_⟩
  · refine byteAt_patch_of_not_mem _ _ _ ?_
    by_contra hin
    refine hk ⟨off / BSIZE * BSIZE + k, ?_, ?_, ?_, ?_⟩
    · show off ≤ off / 512 * 512 + k
      omega
    · show off / 512 * 512 + k < off + m
      omega
    · have hd : (off / BSIZE * BSIZE + k) / BSIZE = off / BSIZE := by
        show (off / 512 * 512 + k) / 512 = off / 512
        omega
      rw [hd]
    · show k = (off / 512 * 512 + k) % 512
      omega
  · have hd : o / BSIZE = off / BSIZE := by
      show o / 512 = off / 512
      omega
    have ho5 : o % BSIZE = off % 512 + (o - off) := by
      show o % 512 = off % 512 + (o - off)
      omega
    have hat := (h.sameMap_leaf hleaf hp (patch (σ (blockAt T σ (place i (off / BSIZE))))
      (off % BSIZE) src)).blockAt_eq hleaf.valid
    have hB := BSIZE_eq
    unfold fileByte
    rw [hd, hat, Function.update_self, byteAt_patch_of_mem _ _ _ (by omega) (by omega) (by omega)]
    congr 1
    omega

theorem writeLoop_spec (turns : Nat) (h : Consistent sb T σ) (hT : T ip.inum = ip.addrs)
    (hi : ip.inum < sb.ninodes) (hr : r ≤ turns) (hlen : src.length = r)
    (hmax : off + r ≤ MAXFILE * BSIZE) (hSv : ∀ p ∈ S, (shape sb).Valid p)
    (hS : ∀ o, off ≤ o → o < off + r → ∀ p ∈ branch ip.inum (o / BSIZE), p ∈ S)
    (hroom : H .outOfBlocks ∨ need S T σ ≤ freeBlocks sb σ) :
    (writeLoop sb turns ip src off r).wp H sb.Logged (Wrote sb S T σ ip src off r) σ := by
  induction turns generalizing T σ ip src off r with
  | zero =>
    refine wp_pure ⟨rfl, ?_, fun o ho ho' => by omega, fun _ => rfl⟩
    rw [← hT, Function.update_eq_self]
    exact Extends.refl h
  | succ turns ih =>
    unfold writeLoop
    by_cases hr0 : r = 0
    · rw [if_pos hr0]
      refine wp_pure ⟨rfl, ?_, fun o ho ho' => by omega, fun _ => rfl⟩
      rw [← hT, Function.update_eq_self]
      exact Extends.refl h
    rw [if_neg hr0]
    have hbn : off / BSIZE < MAXFILE := by
      have hmax' : off + r ≤ MAXFILE * 512 := hmax
      show off / 512 < MAXFILE
      omega
    refine wp_seq (bmap_spec (D := Dirty ip.inum off r) h hT hi hSv
      (hS off (Nat.le_refl _) (by omega)) hbn hroom) ?_
    rintro ⟨addr, ip1⟩ σ1 ⟨hip1, hext1, hat1, h01, hfound1⟩
    dsimp only at hip1 hext1 hat1 h01 hfound1 ⊢
    generalize hm : min r (BSIZE - off % BSIZE) = m
    have hmod : off % BSIZE = off % 512 := rfl
    have hB := BSIZE_eq
    have hlt := Nat.mod_lt off (show 0 < 512 by omega)
    have hinum : ip1.inum = ip.inum := by rw [hip1]
    generalize hT1 : Function.update T ip.inum ip1.addrs = T1 at hext1 hat1
    have hp1 : Present T1 σ1 ip.inum off := by
      unfold Present
      rw [hat1]
      exact h01
    obtain ⟨hext2, hbytes⟩ := extends_piece (m := m) hext1.consistent hi hSv hp1 (by omega)
      (show (src.take m).length = m by rw [List.length_take]; omega)
    rw [hat1] at hext2 hbytes
    generalize hσ2 : Function.update σ1 addr (patch (σ1 addr) (off % BSIZE) (src.take m)) = σ2
      at hext2 hbytes
    have hlive := hext1.consistent.live (leaf_place hi _).valid hp1
    rw [hat1] at hlive
    refine wp_bind (wp_bread (wp_bind (wp_logWrite (Superblock.logged_of_datastart hlive.1)
      (wp_bind (wp_brelse ?_)))))
    rw [hσ2]
    have hext12 := hext1.trans (hext2.mono (dirty_mono (Nat.le_refl _) (by omega)))
    have hT1' : T1 ip1.inum = ip1.addrs := by rw [← hT1, hinum, Function.update_self]
    have hrest : (writeLoop sb turns ip1 (src.drop m) (off + m) (r - m)).wp H sb.Logged
        (Wrote sb S T1 σ2 ip1 (src.drop m) (off + m) (r - m)) σ2 :=
      ih hext2.consistent hT1' (by rw [hinum]; exact hi) (by omega)
        (by rw [List.length_drop]; omega) (by omega)
        (fun o ho ho' => by rw [hinum]; exact hS o (by omega) (by omega))
        (hroom.imp_right hext12.room)
    refine wp_mono hrest ?_
    rintro ip' τ ⟨hip', hext, hhere, hfound⟩
    rw [hinum] at hext hhere hfound
    have htable : Function.update T1 ip.inum ip'.addrs = Function.update T ip.inum ip'.addrs := by
      rw [← hT1, Function.update_idem]
    rw [htable] at hext hhere
    have hmono : ∀ p k, Dirty ip.inum (off + m) (r - m) p k → Dirty ip.inum off r p k :=
      dirty_mono (Nat.le_add_right off m) (by omega)
    have hext' := hext.mono hmono
    refine ⟨?_, hext12.trans hext', fun o ho ho' => ?_, fun hpres => ?_⟩
    · rw [hip', hip1]
    · by_cases hom : o < off + m
      · -- written in this turn, and left alone by the later ones
        have hd : o / BSIZE = off / BSIZE := by
          show o / 512 = off / 512
          omega
        have hpo : Present T1 σ2 ip.inum o := by
          refine hext2.present hi ?_
          unfold Present
          rw [hd]
          exact hp1
        have hkeep := hext.fileByte_eq hi hpo
          (not_dirty (by omega) (by omega) (Or.inr (Or.inl hom)))
        refine ⟨hext.present hi hpo, ?_⟩
        rw [hkeep, hbytes o ho hom, List.getD_eq_getElem _ _ (by rw [List.length_take]; omega),
          List.getElem_take, List.getD_eq_getElem _ _ (by omega)]
      · obtain ⟨hpo, hbyte⟩ := hhere o (by omega) (by omega)
        refine ⟨hpo, ?_⟩
        rw [hbyte, List.getD_eq_getElem _ _ (by rw [List.length_drop]; omega), List.getElem_drop,
          List.getD_eq_getElem _ _ (by omega)]
        congr 1
        omega
    · have ha : ip1.addrs = ip.addrs := (hfound1 (hpres off (Nat.le_refl _) (by omega))).1
      rw [← ha]
      exact hfound fun o ho ho' => hext12.present hi (hpres o (by omega) (by omega))

/-- `src` written over `old` from `off` on. -/
def patched (old : List Byte) (off : Nat) (src : List Byte) : List Byte :=
  old.take off ++ src ++ old.drop (off + src.length)

/-- What `writei` leaves: the file has its old bytes patched with `src`, and every
other inode has its blocks with the same data. -/
structure Written (sb : Superblock) (T : AddrTable) (σ : Contents) (ip : Inode) (src : List Byte)
    (off n : Nat) (ip' : Inode) (τ : Contents) : Prop where
  inode : ip' = { ip with addrs := ip'.addrs, size := ip'.size }
  size : ip'.size.toNat = max ip.size.toNat (off + n)
  consistent : Consistent sb (Function.update T ip.inum ip'.addrs) τ
  noHoles : NoHoles (Function.update T ip.inum ip'.addrs) τ ip.inum ip'.size.toNat
  contents : fileContents (Function.update T ip.inum ip'.addrs) τ ip'
    = patched (fileContents T σ ip) off src
  others : ∀ j, j ≠ ip.inum → j < sb.ninodes → ∀ bn,
    blockAt (Function.update T ip.inum ip'.addrs) τ (place j bn) = blockAt T σ (place j bn) ∧
    (blockAt T σ (place j bn) ≠ 0 → τ (blockAt T σ (place j bn)) = σ (blockAt T σ (place j bn)))
  dinodes : ∀ j, j ≠ ip.inum → j < sb.ninodes → dinode sb τ j = dinode sb σ j
  saved : dinode sb σ ip.inum = ip.toDinode → dinode sb τ ip.inum = ip'.toDinode

theorem Consistent.sameMap_updated (h : Consistent sb T σ) (hi : i < sb.ninodes) (d : Dinode) :
    SameMap sb T σ (updated sb σ i d) :=
  h.sameMap_low fun _ hb => updated_high hi d hb

theorem Consistent.updated_blockAt (h : Consistent sb T σ) (hi : i < sb.ninodes) (d : Dinode)
    {p : Place} (hp : (shape sb).Valid p) (h0 : blockAt T σ p ≠ 0) :
    updated sb σ i d (blockAt T σ p) = σ (blockAt T σ p) := by
  have hlive := h.live hp h0
  have h1 := sb.bmapstart_lt_datastart
  exact updated_high hi d (Nat.le_trans (Nat.le_of_lt h1) hlive.1)

section Finish

variable {ip' : Inode} {n : BitVec 32}

theorem Wrote.others (hw : Wrote sb (touched ip.inum off r) T σ ip src off r ip' τ)
    {j : Nat} (hj : j ≠ ip.inum) (hjn : j < sb.ninodes) (bn : Nat) :
    blockAt (Function.update T ip.inum ip'.addrs) τ (place j bn) = blockAt T σ (place j bn) ∧
    (blockAt T σ (place j bn) ≠ 0 →
      τ (blockAt T σ (place j bn)) = σ (blockAt T σ (place j bn))) := by
  have hleaf : Leaf sb (place j bn) := leaf_place hjn bn
  refine ⟨?_, fun h0 => ext_byteAt fun k _ => ?_⟩
  · by_cases h0 : blockAt T σ (place j bn) = 0
    · by_contra hne
      rw [h0] at hne
      exact hj (inum_of_mem_touched (hw.ext.fresh _ hleaf.valid h0 hne))
    · exact hw.ext.keep _ hleaf.valid h0
  · refine hw.ext.data _ hleaf h0 k ?_
    rintro ⟨o, -, -, hp, -⟩
    exact hj (congrArg (fun p : Place => p.1.1) hp)

theorem Wrote.contents (hw : Wrote sb S T σ ip src off r ip' τ) (hi : ip.inum < sb.ninodes)
    (hlen : src.length = r) {size : Nat} (hoff : off ≤ size)
    (hmax : off + r ≤ MAXFILE * BSIZE) (hh : NoHoles T σ ip.inum size) :
    fileBytes (Function.update T ip.inum ip'.addrs) τ ip.inum 0 (max size (off + r))
      = patched (fileBytes T σ ip.inum 0 size) off src := by
  have hold : ∀ o, o < size → (o < off ∨ off + r ≤ o) →
      fileByte (Function.update T ip.inum ip'.addrs) τ ip.inum o = fileByte T σ ip.inum o := by
    intro o ho hout
    have hle := hh.le
    exact hw.ext.fileByte_eq hi (hh.present o ho) (not_dirty hmax (by omega) (Or.inr hout))
  have hnew : fileBytes (Function.update T ip.inum ip'.addrs) τ ip.inum off r = src := by
    refine List.ext_getElem (by rw [length_fileBytes, hlen]) fun k hk hk' => ?_
    rw [length_fileBytes] at hk
    simp only [fileBytes, List.getElem_map, List.getElem_range]
    rw [(hw.here (off + k) (by omega) (by omega)).2, List.getD_eq_getElem _ _ (by omega)]
    congr 1
    omega
  have hsplit : max size (off + r) = off + r + (size - (off + r)) := by omega
  unfold patched
  rw [hsplit, ← fileBytes_append, ← fileBytes_append, fileBytes_take, fileBytes_drop, hlen,
    Nat.zero_add, Nat.zero_add, hnew, Nat.min_eq_left hoff]
  congr 1
  · congr 1
    exact fileBytes_congr fun o _ ho => hold o (by omega) (by omega)
  · exact fileBytes_congr fun o ho ho' => hold o (by omega) (by omega)

theorem Wrote.noHoles (hw : Wrote sb S T σ ip src off r ip' τ) (hi : ip.inum < sb.ninodes)
    {size : Nat} (hoff : off ≤ size) (hmax : off + r ≤ MAXFILE * BSIZE)
    (hh : NoHoles T σ ip.inum size) :
    NoHoles (Function.update T ip.inum ip'.addrs) τ ip.inum (max size (off + r)) := by
  have hle := hh.le
  refine ⟨by omega, fun o ho => ?_⟩
  by_cases hin : off ≤ o ∧ o < off + r
  · exact (hw.here o hin.1 hin.2).1
  · exact hw.ext.present hi (hh.present o (by omega))

/-- The file has not grown. -/
theorem Wrote.written (hw : Wrote sb (touched ip.inum off r) T σ ip src off r ip' τ)
    (hi : ip.inum < sb.ninodes) (hlen : src.length = r) (hoff : off ≤ ip.size.toNat)
    (hmax : off + r ≤ MAXFILE * BSIZE) (hh : NoHoles T σ ip.inum ip.size.toNat)
    (hfit : r = 0 ∨ off + r ≤ ip.size.toNat) : Written sb T σ ip src off r ip' τ := by
  have hsize : ip'.size = ip.size := by rw [hw.inode]
  have hinum : ip'.inum = ip.inum := by rw [hw.inode]
  have hnew : ip'.size.toNat = max ip.size.toNat (off + r) := by
    rw [hsize]
    omega
  have haddrs : ip'.addrs = ip.addrs := hw.found fun o ho ho' => hh.present o (by omega)
  have hlow : ∀ j, j < sb.ninodes → dinode sb τ j = dinode sb σ j :=
    fun j hj => dinode_congr (hw.ext.low _ (Superblock.iblock_lt hj))
  refine ⟨?_, hnew, hw.ext.consistent, ?_, ?_, fun j hj hjn bn => hw.others hj hjn bn,
    fun j _ hjn => hlow j hjn, fun hs => ?_⟩
  · rw [hw.inode]
  · rw [hnew]
    exact hw.noHoles hi hoff hmax hh
  · unfold fileContents
    rw [hinum, hnew]
    exact hw.contents hi hlen hoff hmax hh
  · rw [hlow _ hi, hs, hw.inode, haddrs]

/-- The file has grown, and the inode is written to its block. -/
theorem Wrote.grown {ip2 : Inode} (hw : Wrote sb (touched ip.inum off r) T σ ip src off r ip' τ)
    (hi : ip.inum < sb.ninodes) (hlen : src.length = r) (hoff : off ≤ ip.size.toNat)
    (hmax : off + r ≤ MAXFILE * BSIZE) (hh : NoHoles T σ ip.inum ip.size.toNat)
    (hip2 : ip2 = { ip' with size := ip2.size })
    (hnew : ip2.size.toNat = max ip.size.toNat (off + r)) :
    Written sb T σ ip src off r ip2 (updated sb τ ip2.inum ip2.toDinode) := by
  have haddrs : ip2.addrs = ip'.addrs := by rw [hip2]
  have hinum : ip2.inum = ip.inum := by rw [hip2, hw.inode]
  rw [hinum]
  have hip : ip2 = { ip with addrs := ip2.addrs, size := ip2.size } := by
    rw [haddrs]
    calc ip2 = { ip' with size := ip2.size } := hip2
      _ = { ip with addrs := ip'.addrs, size := ip2.size } := by rw [hw.inode]
  clear hip2
  have hc := hw.ext.consistent
  have hholes := hw.noHoles hi hoff hmax hh
  have hcont := hw.contents hi hlen hoff hmax hh
  have hother : ∀ j, j ≠ ip.inum → j < sb.ninodes → ∀ bn, _ := fun j hj hjn bn => hw.others hj hjn bn
  have hlow : ∀ j, j < sb.ninodes → dinode sb τ j = dinode sb σ j :=
    fun j hj => dinode_congr (hw.ext.low _ (Superblock.iblock_lt hj))
  rw [← haddrs] at hc hholes hcont hother
  generalize hT' : Function.update T ip.inum ip2.addrs = T' at hc hholes hcont hother
  have hmap := hc.sameMap_updated hi ip2.toDinode
  have hat : ∀ j, j < sb.ninodes → ∀ bn,
      blockAt T' (updated sb τ ip.inum ip2.toDinode) (place j bn) = blockAt T' τ (place j bn) :=
    fun j hj bn => hmap.blockAt_eq (leaf_place hj bn).valid
  have hpres : NoHoles T' (updated sb τ ip.inum ip2.toDinode) ip.inum ip2.size.toNat := by
    rw [hnew]
    refine ⟨hholes.le, fun o ho => ?_⟩
    unfold Present
    rw [hat _ hi]
    exact hholes.present o ho
  subst hT'
  refine ⟨hip, hnew, hmap.consistent hc, hpres, ?_, fun j hj hjn bn => ?_,
    fun j hj hjn => ?_, fun _ => dinode_updated_self _⟩
  · unfold fileContents
    rw [hinum, hnew, ← hcont]
    refine fileBytes_congr fun o _ ho => ?_
    unfold fileByte
    rw [hat _ hi, hc.updated_blockAt hi _ (leaf_place hi _).valid (hholes.present o (by omega))]
  · obtain ⟨hb, hdata⟩ := hother j hj hjn bn
    refine ⟨(hat j hjn bn).trans hb, fun h0 => ?_⟩
    have hu := hc.updated_blockAt hi ip2.toDinode (leaf_place hjn bn).valid
      (by rw [hb]; exact h0)
    rw [hb] at hu
    rw [hu, hdata h0]
  · rw [dinode_updated_ne _ hj, hlow j hjn]

end Finish

/-- A write within the limits does what it should. -/
theorem writei_spec (devsw : Fin NDEV → Devsw) {off n : BitVec 32} (h : Consistent sb T σ)
    (hT : T ip.inum = ip.addrs)
    (hi : ip.inum < sb.ninodes) (hdev : ip.type ≠ T_DEV)
    (hh : NoHoles T σ ip.inum ip.size.toNat) (hoff : off.toNat ≤ ip.size.toNat)
    (hmax : off.toNat + n.toNat ≤ MAXFILE * BSIZE) (hlen : src.length = n.toNat)
    (hroom : H .outOfBlocks ∨
      need (touched ip.inum off.toNat n.toNat) T σ ≤ freeBlocks sb σ) :
    (writei sb devsw ip src off n).wp H sb.Logged (fun r τ =>
      r.1 = n.toNat ∧ Written sb T σ ip src off.toNat n.toNat r.2 τ) σ := by
  have hmax' := hmax
  rw [MAXFILE_BSIZE] at hmax'
  have hadd := toNat_add_of_lt (x := off) (y := n) (by omega)
  have hret : n.toInt = n.toNat := toInt_of_le (by omega)
  unfold writei
  rw [if_neg hdev, if_neg, if_neg]
  · refine wp_seq (writeLoop_spec n.toNat h hT hi (Nat.le_refl _) hlen hmax
      (fun p hp => valid_touched hi hp) (fun o ho ho' p hp => mem_touched ho ho' hp) hroom) ?_
    intro ip1 τ hw
    have hsize : ip1.size = ip.size := by rw [hw.inode]
    by_cases hgrow : 0 < n ∧ ip1.size < off + n
    · rw [if_pos hgrow]
      have hlt := hgrow.2
      rw [BitVec.lt_def, hadd, hsize] at hlt
      refine wp_seq (iupdate_spec _) ?_
      rintro _ _ rfl
      refine wp_pure ⟨hret, ?_⟩
      exact hw.grown hi hlen hoff hmax hh rfl
        (by show (off + n).toNat = _; omega)
    · rw [if_neg hgrow]
      refine wp_pure ⟨hret, hw.written hi hlen hoff hmax hh ?_⟩
      rw [BitVec.lt_def, BitVec.lt_def, hadd, hsize] at hgrow
      have h0 : (0 : BitVec 32).toNat = 0 := rfl
      omega
  · rw [BitVec.lt_def, hadd]
    have hM : (BitVec.ofNat 32 (MAXFILE * BSIZE)).toNat = 1082199040 := by decide
    omega
  · rw [BitVec.lt_def, BitVec.lt_def, hadd]
    omega

end Xv6.Fs
